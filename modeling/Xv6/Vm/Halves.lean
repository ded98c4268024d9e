import Xv6.Vm.Boot
import Xv6.Vm.Dense
import Xv6.Lib.Run

/-! The kernel half of every address space stays as `setupkvm` makes it. -/
namespace Xv6
namespace Vm
open Prog

theorem or_testBit_two {a perm : ℕ} (ha : a % 8 = 0) (hp : perm % 8 = 0 ∨ perm % 8 = 2) :
    (a ||| perm ||| PTE_P) / PTE_U % 2 = 0 := by
  have hbit : (a ||| perm ||| PTE_P).testBit 2 = false := by
    have h1 : a.testBit 2 = false := by
      rw [Nat.testBit_eq_decide_div_mod_eq, decide_eq_false_iff_not]
      omega
    have h2 : perm.testBit 2 = false := by
      rw [Nat.testBit_eq_decide_div_mod_eq, decide_eq_false_iff_not]
      omega
    rw [Nat.testBit_or, Nat.testBit_or, h1, h2]
    rfl
  rw [Nat.testBit_eq_decide_div_mod_eq, decide_eq_false_iff_not] at hbit
  rw [PTE_U]
  omega

theorem kernelPte_closed (k : Image) (u : ℕ) : kernelPte k u / PTE_U % 2 = 0 := by
  have hall : ∀ m ∈ kmap k, m.physStart % 4096 = 0 ∧ (m.perm % 8 = 0 ∨ m.perm % 8 = 2) := by
    obtain ⟨h0, h1, h2⟩ := k.data_bounds
    intro m hm
    simp only [kmap_eq, List.mem_cons, List.not_mem_nil, or_false] at hm
    rcases hm with rfl | rfl | rfl | rfl <;> dsimp only <;> omega
  rw [kernelPte]
  generalize kmap k = l at hall
  induction l with
  | nil => rw [ptesOf, Nat.zero_div]
  | cons m ms ih =>
    rw [ptesOf]
    split_ifs with hcov
    · obtain ⟨hphys, hperm⟩ := hall m List.mem_cons_self
      refine or_testBit_two ?_ hperm
      rw [PGSIZE_eq]
      omega
    · exact ih fun m' hm' => hall m' (List.mem_cons_of_mem m hm')

/-- What a page outside the directories is for: not yet given to the allocator, or handed out
by it. -/
inductive Use where
  | reserve (f : ℕ)
  | used (n : ℕ)
  deriving DecidableEq

/-- The address spaces of the kernel, `none` naming `kpgdir`, and the ranges of pages that
calls have mapped in each of them. -/
structure Spaces where
  mem : Mem
  dir : Option ℕ → Option ℕ
  use : Use → Option ℕ
  maps : Option ℕ → List (ℕ × ℕ)

inductive Call where
  | kinit1
  | kinit2
  | kalloc (n : ℕ)
  | kfree (n : ℕ)
  | setupkvm (x : Option ℕ)
  | inituvm (x : Option ℕ) (init : List UInt8)
  | allocuvm (x : Option ℕ) (oldsz newsz : ℕ)
  | deallocuvm (x : Option ℕ) (oldsz newsz : ℕ)
  | clearpteu (x : Option ℕ) (uva : ℕ)
  | copyuvm (x y : Option ℕ) (sz : ℕ)
  | freevm (x : Option ℕ)
  | store (x : Option ℕ) (v : ℕ) (p : Page)

namespace Spaces

def start (k : Image) (page : ℕ → Page) : Spaces where
  mem := ⟨page, []⟩
  dir _ := none
  use
    | .reserve f => if k.Pool f then some f else none
    | .used _ => none
  maps _ := []

def after {α : Type} (s : Spaces) (m : VmM α) (f : α → Mem → Spaces) : Option Spaces :=
  match m s.mem with
  | .ok a t => some (f a t)
  | .stop _ => none

def setMem (s : Spaces) (t : Mem) : Spaces := { s with mem := t }

def setDir (s : Spaces) (x : Option ℕ) (d : Option ℕ) (r : List (ℕ × ℕ)) (t : Mem) : Spaces :=
  { s with mem := t, dir := Function.update s.dir x d, maps := Function.update s.maps x r }

def addMap (s : Spaces) (x : Option ℕ) (r : ℕ × ℕ) (t : Mem) : Spaces :=
  { s with mem := t, maps := Function.update s.maps x (r :: s.maps x) }

def kinit (s : Spaces) (a n : ℕ) (m : VmM Unit) : Option Spaces :=
  if ∀ i < n, s.use (.reserve (a + i)) = some (a + i) then
    s.after m fun _ t => { s with mem := t, use := released s.use .reserve a n }
  else none

/-- One call. The sizes are as the callers of `vm.c` give them: `deallocuvm` gets at most
`KERNBASE`, and `copyuvm` the size of a process. -/
def step (k : Image) (s : Spaces) : Call → Option Spaces
  | .kinit1 => s.kinit k.firstFrame (1024 - k.firstFrame) (Vm.kinit1 k)
  | .kinit2 => s.kinit 1024 (0xE000 - 1024) (Vm.kinit2 k)
  | .kalloc n =>
    s.after Vm.kalloc fun f t => { s with mem := t, use := Function.update s.use (.used n) f }
  | .kfree n => do
    let f ← s.use (.used n)
    s.after (Vm.kfree k f) fun _ t =>
      { s with mem := t, use := Function.update s.use (.used n) none }
  | .setupkvm x =>
    if s.dir x = none then s.after (Vm.setupkvm k) fun d t => s.setDir x d [] t else none
  | .inituvm x init => do
    let d ← s.dir x
    s.after (Vm.inituvm d init) fun _ t => s.addMap x (0, 1) t
  | .allocuvm x oldsz newsz => do
    let d ← s.dir x
    s.after (Vm.allocuvm k d oldsz newsz) fun _ t =>
      if newsz < KERNBASE then s.addMap x (pagesOf oldsz, pagesOf newsz) t else s.setMem t
  | .deallocuvm x oldsz newsz => do
    let d ← s.dir x
    if oldsz ≤ KERNBASE then s.after (Vm.deallocuvm k d oldsz newsz) fun _ t => s.setMem t
    else none
  | .clearpteu x uva => do
    let d ← s.dir x
    if uva < 2 ^ 32 then s.after (Vm.clearpteu d uva) fun _ t => s.setMem t else none
  | .copyuvm x y sz => do
    let d ← s.dir x
    if s.dir y = none ∧ sz < KERNBASE then
      s.after (Vm.copyuvm k d sz) fun e t => s.setDir y e [(0, pagesOf sz)] t
    else none
  | .freevm x => do
    let d ← s.dir x
    s.after (Vm.freevm k d) fun _ t => s.setDir x none [] t
  | .store x v p => do
    let d ← s.dir x
    if v < userPages then (frameOf (pteAt s.mem d v)).map fun f => s.setMem (s.mem.setPage f p)
    else none

/-- The page `u` has been mapped for `x` by one of the calls. -/
def Ranged (s : Spaces) (x : Option ℕ) (u : ℕ) : Prop := ∃ r ∈ s.maps x, r.1 ≤ u ∧ u < r.2

/-- Pages have one holder, and every directory has the kernel's upper half and user pages only
where calls have mapped them. -/
structure Inv (k : Image) (s : Spaces) : Prop where
  owns : Owns k s.mem s.dir s.use
  space : ∀ x d, s.dir x = some d → Space k d (s.Ranged x) s.mem

theorem after_some {α : Type} {s t : Spaces} {m : VmM α} {f : α → Mem → Spaces}
    (h : s.after m f = some t) : ∃ a u, m s.mem = .ok a u ∧ t = f a u := by
  unfold after at h
  cases hm : m s.mem with
  | ok a u =>
    rw [hm] at h
    exact ⟨a, u, rfl, (Option.some.inj h).symm⟩
  | stop e =>
    rw [hm] at h
    simp at h

end Spaces

theorem Spaces.after_wp {α : Type} {s t : Spaces} {m : VmM α} {f : α → Mem → Spaces}
    {Q : α → Mem → Prop} {E : String → Prop} (h : s.after m f = some t) (hm : wp m s.mem Q E) :
    ∃ a u, Q a u ∧ t = f a u := by
  obtain ⟨a, u, hrun, ht⟩ := after_some h
  exact ⟨a, u, wp_ok Q hrun hm, ht⟩

theorem Space.mono {k : Image} {d : ℕ} {R R' : ℕ → Prop} {s : Mem} (h : Space k d R s)
    (hR : ∀ u, R u → R' u) : Space k d R' s :=
  ⟨h.kernel, fun u hu hp => hR u (h.user u hu hp)⟩

theorem Space.same {ι : Type} {k : Image} {d : ℕ} {R : ℕ → Prop} {s t : Mem} {D : ι → Option ℕ}
    {x : ι} (h : Space k d R s) (hx : D x = some d) (hsame : SamePtes D s t) : Space k d R t := by
  have hU := userPages_eq
  refine ⟨?_, ?_⟩
  · intro u h1 h2
    rw [hsame x d u hx h2, h.kernel u h1 h2]
  · intro u hu hp
    rw [hsame x d u hx (by omega)] at hp
    exact h.user u hu hp

namespace Spaces

variable {k : Image} {s t : Spaces} {x : Option ℕ} {d : ℕ}

theorem Inv.same (h : Inv k s) {m : Mem} {use : Use → Option ℕ} (howns : Owns k m s.dir use)
    (hsame : SamePtes s.dir s.mem m) : Inv k { s with mem := m, use := use } :=
  ⟨howns, fun x d hx => (h.space x d hx).same hx hsame⟩

theorem Inv.change (h : Inv k s) {m : Mem} {R : ℕ → Prop}
    (hch : UserChange k s.dir s.use x R s.mem m)
    {l : List (ℕ × ℕ)} (hl : ∀ r ∈ s.maps x, r ∈ l)
    (hR : ∀ u, R u → ∃ r ∈ l, r.1 ≤ u ∧ u < r.2) :
    Inv k { s with mem := m, maps := Function.update s.maps x l } := by
  refine ⟨hch.owns, ?_⟩
  intro y e hy
  by_cases hyx : y = x
  · subst hyx
    refine ((h.space y e hy).change hy hch).mono ?_
    intro u hu
    show ∃ r ∈ Function.update s.maps y l y, r.1 ≤ u ∧ u < r.2
    rw [Function.update_self]
    rcases hu with ⟨r, hr, hu⟩ | hu
    · exact ⟨r, hl r hr, hu⟩
    · exact hR u hu
  · have hU := userPages_eq
    have hspace := h.space y e hy
    refine ⟨?_, ?_⟩
    · intro u h1 h2
      rw [hch.ptes y e u hy h2 (Or.inl hyx), hspace.kernel u h1 h2]
    · intro u hu hp
      rw [hch.ptes y e u hy (by omega) (Or.inl hyx)] at hp
      obtain ⟨r, hr, hru⟩ := hspace.user u hu hp
      refine ⟨r, ?_, hru⟩
      show r ∈ Function.update s.maps x l y
      rw [Function.update_of_ne hyx]
      exact hr

theorem Inv.setMem (h : Inv k s) {m : Mem} {R : ℕ → Prop}
    (hch : UserChange k s.dir s.use x R s.mem m) (hR : ∀ u, R u → s.Ranged x u) :
    Inv k (s.setMem m) := by
  have hinv := h.change hch (l := s.maps x) (fun _ hr => hr) hR
  rw [Function.update_eq_self] at hinv
  exact hinv

theorem Inv.addMap (h : Inv k s) {m : Mem} {r : ℕ × ℕ}
    (hch : UserChange k s.dir s.use x (fun u => r.1 ≤ u ∧ u < r.2) s.mem m) :
    Inv k (s.addMap x r m) :=
  h.change hch (fun _ hr => List.mem_cons_of_mem r hr)
    fun _ hu => ⟨r, List.mem_cons_self, hu⟩

theorem Inv.setDir (h : Inv k s) {m : Mem} {d : Option ℕ} {l : List (ℕ × ℕ)}
    (howns : Owns k m (Function.update s.dir x d) s.use)
    (hsame : ∀ y e u, y ≠ x → s.dir y = some e → u < 2 ^ 20 → pteAt m e u = pteAt s.mem e u)
    (hnew : ∀ e, d = some e → Space k e (fun u => ∃ r ∈ l, r.1 ≤ u ∧ u < r.2) m) :
    Inv k (s.setDir x d l m) := by
  have hU := userPages_eq
  refine ⟨howns, ?_⟩
  intro y e hy
  have hy' : Function.update s.dir x d y = some e := hy
  by_cases hyx : y = x
  · rw [hyx, Function.update_self] at hy'
    refine (hnew e hy').mono ?_
    intro u hu
    show ∃ r ∈ Function.update s.maps x l y, r.1 ≤ u ∧ u < r.2
    rw [hyx, Function.update_self]
    exact hu
  · rw [Function.update_of_ne hyx] at hy'
    have hspace := h.space y e hy'
    refine ⟨?_, ?_⟩
    · intro u h1 h2
      exact (hsame y e u hyx hy' h2).trans (hspace.kernel u h1 h2)
    · intro u hu hp
      obtain ⟨r, hr, hru⟩ := hspace.user u hu ((hsame y e u hyx hy' (by omega)) ▸ hp)
      refine ⟨r, ?_, hru⟩
      show r ∈ Function.update s.maps x l y
      rw [Function.update_of_ne hyx]
      exact hr

theorem inv_start (k : Image) (page : ℕ → Page) : Inv k (start k page) := by
  refine ⟨owns_start page .reserve (fun _ => rfl) ?_, nofun⟩
  rintro (g | n) f hf
  · simp only [start, Option.ite_none_right_eq_some, Option.some.injEq] at hf
    obtain ⟨hpool, rfl⟩ := hf
    exact ⟨rfl, hpool⟩
  · simp [start] at hf

theorem Inv.kinit (h : Inv k s) {a n : ℕ} {m : VmM Unit}
    (hm : m = (List.range' a n).forM fun f => Vm.kfree k f) (ht : s.kinit a n m = some t) :
    Inv k t := by
  unfold Spaces.kinit at ht
  split_ifs at ht with hres
  have hinj : Function.Injective Use.reserve := fun f g heq => Use.reserve.inj heq
  rw [hm] at ht
  obtain ⟨-, u, ⟨h1, h2, -⟩, rfl⟩ := after_wp ht (freerange_spec h.owns hinj hres)
  exact h.same h1 h2

/-- `clearpteu` closes a page of a user; the kernel's pages are closed already. -/
theorem Inv.clearpteu (h : Inv k s) (hx : s.dir x = some d) {m : Mem} {v : ℕ}
    (howns : Owns k m s.dir s.use)
    (hptes : ∀ y e u, s.dir y = some e → u < 2 ^ 20 → pteAt m e u =
      if y = x ∧ u = v then clearU (pteAt s.mem e u) else pteAt s.mem e u) :
    Inv k (s.setMem m) := by
  have hU := userPages_eq
  refine h.setMem (x := x) (R := fun _ => False) ⟨howns, ?_, ?_⟩ fun u hu => hu.elim
  · intro y e u hy hu hne
    rw [hptes y e u hy hu]
    split_ifs with hyu
    · obtain ⟨rfl, rfl⟩ := hyu
      have hlo := hne.resolve_left fun hne => hne rfl
      have hclosed := kernelPte_closed k u
      rw [(h.space y e hy).kernel u hlo hu, clearU, if_neg (by omega)]
    · rfl
  · intro e u hy hu hp
    rw [hptes x e u hy (by omega)] at hp
    split_ifs at hp with hyu
    · rw [clearU_odd] at hp
      exact Or.inl hp
    · exact Or.inl hp

theorem Inv.step (h : Inv k s) {c : Call} (hc : s.step k c = some t) : Inv k t := by
  cases c with
  | kinit1 => exact h.kinit (kinit1_eq k) hc
  | kinit2 => exact h.kinit (kinit2_eq k) hc
  | kalloc n =>
    have hspec : wp Vm.kalloc s.mem (fun r m => (r = none ∧ m = s.mem) ∨
        ∃ f, r = some f ∧ m.give f = s.mem) (fun _ => False) := by
      refine wp_kalloc (fun _ => Or.inl ⟨rfl, rfl⟩) ?_
      intro f rest hfree
      exact Or.inr ⟨f, rfl, give_tail hfree⟩
    obtain ⟨r, m, hr, rfl⟩ := after_wp hc hspec
    rcases hr with ⟨rfl, rfl⟩ | ⟨f, rfl, hm⟩
    · exact h.same (h.owns.forget _) fun _ _ _ _ _ => rfl
    · have howns := h.owns
      rw [← hm] at howns
      refine h.same (howns.put _) ?_
      intro y e u _ _
      rw [← hm, pteAt_give]
  | kfree n =>
    obtain ⟨f, hf, hc⟩ := Option.bind_eq_some_iff.mp hc
    have hpool : k.Pool f := h.owns.held (.other (.used n)) f hf
    obtain ⟨howns, hsame⟩ := (h.owns.takeOut hf).kfree (fill 1)
    obtain ⟨_, m, rfl, rfl⟩ := after_wp hc ((wp_kfree (Q := fun _ m =>
      m = (s.mem.setPage f (fill 1)).give f) (E := fun _ => False) hpool).mpr rfl)
    exact h.same howns hsame
  | setupkvm x =>
    simp only [Spaces.step] at hc
    split_ifs at hc with hx
    obtain ⟨r, m, ⟨hun, hnone, hsome⟩, rfl⟩ := after_wp hc (setupkvm_spec (x := x) h.owns hx)
    refine h.setDir ?_ (fun y e u _ hy hu => hun.ptes y e u hy hu) ?_
    · cases r with
      | none =>
        rw [Function.update_eq_self_iff.mpr hx.symm]
        exact (hnone rfl).1
      | some d => exact (hsome d rfl).1.owns
    · intro e he
      exact (hsome e he).1.space.mono fun u hu => hu.elim
  | inituvm x init =>
    obtain ⟨d, hx, hc⟩ := Option.bind_eq_some_iff.mp hc
    obtain ⟨_, m, hch, rfl⟩ := after_wp hc (inituvm_spec h.owns hx)
    exact h.addMap (hch.mono fun u _ hu => ⟨by omega, by omega⟩)
  | allocuvm x oldsz newsz =>
    obtain ⟨d, hx, hc⟩ := Option.bind_eq_some_iff.mp hc
    obtain ⟨n, m, halloc, rfl⟩ := after_wp hc (allocuvm_spec h.owns hx)
    have hch := halloc.userChange h.owns
    split_ifs with hlt
    · exact h.addMap (hch.mono fun u _ hu => hu.2)
    · exact h.setMem hch fun u hu => absurd hu.1 hlt
  | deallocuvm x oldsz newsz =>
    obtain ⟨d, hx, hc⟩ := Option.bind_eq_some_iff.mp hc
    split_ifs at hc with hle
    obtain ⟨n, m, ⟨-, hcl⟩, rfl⟩ := after_wp hc (deallocuvm_spec h.owns hx hle)
    exact h.setMem (hcl.userChange (R := fun _ => False) hle) fun u hu => hu.elim
  | clearpteu x uva =>
    obtain ⟨d, hx, hc⟩ := Option.bind_eq_some_iff.mp hc
    split_ifs at hc with huva
    have hv : uva / PGSIZE < 2 ^ 20 := by
      rw [PGSIZE_eq]
      omega
    obtain ⟨_, m, ⟨howns, -, -, hptes⟩, rfl⟩ := after_wp hc (clearpteu_spec h.owns hx hv rfl)
    exact h.clearpteu hx howns hptes
  | copyuvm x y sz =>
    obtain ⟨d, -, hc⟩ := Option.bind_eq_some_iff.mp hc
    split_ifs at hc with hy
    obtain ⟨r, m, ⟨hsame, hnone, hsome⟩, rfl⟩ := after_wp hc
      (copyuvm_spec h.owns hy.1 hy.2.le)
    refine h.setDir ?_ (fun z e u _ hz hu => hsame z e u hz hu) ?_
    · cases r with
      | none =>
        rw [Function.update_eq_self_iff.mpr hy.1.symm]
        exact hnone rfl
      | some e => exact (hsome e rfl).1
    · intro e he
      refine (hsome e he).2.mono ?_
      intro u hu
      exact ⟨_, List.mem_singleton_self _, by omega, hu⟩
  | freevm x =>
    obtain ⟨d, hx, hc⟩ := Option.bind_eq_some_iff.mp hc
    obtain ⟨_, m, ⟨howns, hsame⟩, rfl⟩ := after_wp hc (freevm_spec h.owns hx)
    refine h.setDir howns ?_ (by simp)
    intro y e u hyx hy hu
    exact hsame y e u (by rw [Function.update_of_ne hyx]; exact hy) hu
  | store x v p =>
    obtain ⟨d, hx, hc⟩ := Option.bind_eq_some_iff.mp hc
    split_ifs at hc with hv
    obtain ⟨f, hf, rfl⟩ := Option.map_eq_some_iff.mp hc
    have hspine := h.owns.not_spine_of_user hx hv hf
    exact h.same (h.owns.setPage hspine p) (samePtes_setPage hspine p)

/-- The kernel half of every directory is that of `kpgdir` and closed to user code, and below
`KERNBASE` only pages that calls have mapped are present. -/
theorem kernel_half_fixed (page : ℕ → Page) (h : Run.Reaches (Spaces.step k) (start k page) s)
    {kpgdir : ℕ} (hk : s.dir none = some kpgdir) (hx : s.dir x = some d) {va : ℕ}
    (hva : va < 2 ^ 32) :
    (KERNBASE ≤ va → pteAt s.mem d (va / PGSIZE) = pteAt s.mem kpgdir (va / PGSIZE) ∧
      pteAt s.mem d (va / PGSIZE) / PTE_U % 2 = 0) ∧
    (va < KERNBASE → pteAt s.mem d (va / PGSIZE) % 2 = 1 → s.Ranged x (va / PGSIZE)) := by
  have hinv : Inv k s := h.invariant (fun _ _ _ hs hc => hs.step hc) (inv_start k page)
  have hU := userPages_eq
  have hK := KERNBASE_eq
  have hP := PGSIZE_eq
  constructor
  · intro hlo
    have hkern := (hinv.space x d hx).kernel (va / PGSIZE) (by rw [hU, hP]; omega)
      (by rw [hP]; omega)
    have hkern' := (hinv.space none kpgdir hk).kernel (va / PGSIZE) (by rw [hU, hP]; omega)
      (by rw [hP]; omega)
    rw [hkern, hkern']
    exact ⟨rfl, kernelPte_closed k _⟩
  · intro hlt hp
    exact (hinv.space x d hx).user _ (by rw [hU, hP]; omega) hp

theorem after_of_wp {α : Type} {m : VmM α} {f : α → Mem → Spaces} {Q : α → Mem → Prop}
    (hm : wp m s.mem Q fun _ => False) : ∃ a u, s.after m f = some (f a u) ∧ Q a u := by
  obtain ⟨a, u, hrun, hq⟩ := wp_total hm
  exact ⟨a, u, by rw [after, hrun], hq⟩

theorem start_reserve (page : ℕ → Page) {f : ℕ} (hf : k.Pool f) :
    (start k page).use (.reserve f) = some f := if_pos hf

theorem released_of_ge {O : Use → Option ℕ} {a n f : ℕ} (hf : a + n ≤ f) :
    released O .reserve a n (.reserve f) = O (.reserve f) := by
  induction n generalizing O a with
  | zero => rfl
  | succ n ih =>
    have hne : Use.reserve f ≠ .reserve a := fun heq => by
      have := Use.reserve.inj heq
      omega
    rw [released, ih (by omega), Function.update_of_ne hne]

theorem exists_kinit (h : Inv k s) {a n : ℕ} {m : VmM Unit}
    (hm : m = (List.range' a n).forM fun f => Vm.kfree k f)
    (hres : ∀ i < n, s.use (.reserve (a + i)) = some (a + i)) :
    ∃ t, s.kinit a n m = some t ∧ t.dir = s.dir ∧ t.use = released s.use .reserve a n ∧
      t.mem.free.length = s.mem.free.length + n := by
  have hinj : Function.Injective Use.reserve := fun f g heq => Use.reserve.inj heq
  obtain ⟨_, u, hrun, -, -, hlen⟩ := after_of_wp (f := fun _ t => { s with
    mem := t, use := released s.use .reserve a n }) (freerange_spec h.owns hinj hres)
  rw [kinit, if_pos hres, hm]
  exact ⟨_, hrun, rfl, rfl, hlen⟩

theorem exists_setupkvm (h : Inv k s) (hx : s.dir x = none) (hfree : 65 ≤ s.mem.free.length) :
    ∃ t d, s.step k (.setupkvm x) = some t ∧ t.dir = Function.update s.dir x (some d) ∧
      t.use = s.use ∧ Dense k t.dir t.use x d (s.mem.free.length - 65) 0 0 t.mem := by
  have hstep : s.step k (.setupkvm x) = s.after (Vm.setupkvm k) fun d t => s.setDir x d [] t := by
    simp only [Spaces.step]
    rw [if_pos hx]
  rw [hstep]
  obtain ⟨r, u, hrun, -, hnone, hsome⟩ := after_of_wp (setupkvm_spec (x := x) h.owns hx)
  cases r with
  | none =>
    have := (hnone rfl).2.2
    omega
  | some d =>
    obtain ⟨hset, hlen⟩ := hsome d rfl
    rw [hlen, Nat.add_sub_cancel]
    exact ⟨_, d, hrun, rfl, rfl, hset.dense⟩

theorem exists_allocuvm {n p : ℕ} (h : Dense k s.dir s.use x d n 0 0 s.mem)
    (hlt : p * PGSIZE < KERNBASE) (hn : need p ≤ n) :
    ∃ t, s.step k (.allocuvm x 0 (p * PGSIZE)) = some t ∧ t.dir = s.dir ∧
      Dense k t.dir t.use x d n 0 p t.mem := by
  have hpages : pagesOf (p * PGSIZE) = p := by
    rw [pagesOf, PGSIZE_eq]
    omega
  have hU := userPages_eq
  have hK := KERNBASE_eq
  rw [PGSIZE_eq] at hlt
  have hloop : wp (Vm.allocuvmFrom d (p * PGSIZE) (2 ^ 20) (0 * PGSIZE)) s.mem
      (fun ok t => Dense.Alloc k s.dir s.use x d n (pagesOf (p * PGSIZE)) ok t) (fun _ => False) :=
    h.allocuvmFrom (by rw [PGSIZE_eq]; omega) (Nat.zero_le _) (by omega)
  rw [Nat.zero_mul] at hloop
  have hwp : wp (Vm.allocuvm k d 0 (p * PGSIZE)) s.mem
      (fun _ t => Dense k s.dir s.use x d n 0 p t) (fun _ => False) := by
    unfold Vm.allocuvm
    rw [if_neg (by rw [PGSIZE_eq]; omega), if_neg (Nat.not_lt_zero _),
      show PGROUNDUP 0 = 0 by decide]
    refine wp_seq hloop ?_
    rintro ok t hok
    rw [Dense.Alloc, hpages, fit, if_pos hn] at hok
    obtain ⟨rfl, hdense⟩ := hok
    rw [if_pos rfl, wp_pure]
    exact hdense
  obtain ⟨_, u, hrun, hdense⟩ := after_of_wp
    (f := fun _ t => s.addMap x (pagesOf 0, pagesOf (p * PGSIZE)) t) hwp
  refine ⟨s.addMap x (pagesOf 0, pagesOf (p * PGSIZE)) u, ?_, rfl, hdense⟩
  rw [← hrun]
  simp only [Spaces.step, h.dir, Option.bind_eq_bind, Option.bind_some]
  rw [← PGSIZE_eq] at hlt
  simp only [if_pos hlt]

def sampleImage : Image where
  data := 0x80108000
  kend := 0x80115000
  data_aligned := by decide
  text := by decide
  data_le := by decide
  kend_le := by decide

/-- `main` runs `kinit1`, `kvmalloc` and `kinit2`, and a process gets `p` pages. -/
theorem exists_first (page : ℕ → Page) {p : ℕ} (hlt : p * PGSIZE < KERNBASE)
    (hneed : need p ≤ 56937) :
    ∃ s kpgdir d, Run.Reaches (Spaces.step sampleImage) (start sampleImage page) s ∧
      s.dir none = some kpgdir ∧ s.dir (some 0) = some d ∧ (∀ n ≠ 0, s.dir (some n) = none) ∧
      Dense sampleImage s.dir s.use (some 0) d 56937 0 p s.mem := by
  have hfirst : sampleImage.firstFrame = 0x115 := by decide
  have hres : ∀ f, 0x115 ≤ f → f < 0xE000 → (start sampleImage page).use (.reserve f) = some f :=
    fun f h1 h2 => start_reserve page (sampleImage.pool_iff.mpr ⟨by omega, h2⟩)
  have hinv := inv_start sampleImage page
  obtain ⟨s1, hs1, hdir1, huse1, hlen1⟩ := exists_kinit hinv (kinit1_eq sampleImage)
    fun i hi => hres _ (by omega) (by omega)
  replace hs1 : (start sampleImage page).step sampleImage .kinit1 = some s1 := hs1
  have hinv1 : Inv sampleImage s1 := hinv.step hs1
  have hnone1 : ∀ y, s1.dir y = none := fun y => by rw [hdir1]; rfl
  rw [hfirst, show (start sampleImage page).mem.free.length = 0 from rfl] at hlen1
  obtain ⟨s2, kpgdir, hs2, hdir2, huse2, hdense2⟩ := exists_setupkvm hinv1 (hnone1 none) (by omega)
  have hinv2 : Inv sampleImage s2 := hinv1.step hs2
  obtain ⟨s3, hs3, hdir3, -, hlen3⟩ := exists_kinit hinv2 (kinit2_eq sampleImage) fun i hi => by
    rw [huse2, huse1, released_of_ge (by omega)]
    exact hres _ (by omega) (by omega)
  replace hs3 : s2.step sampleImage .kinit2 = some s3 := hs3
  have hinv3 : Inv sampleImage s3 := hinv2.step hs3
  have hlen2 := hdense2.free
  obtain ⟨s4, d, hs4, hdir4, -, hdense4⟩ := exists_setupkvm (x := some 0) hinv3
    (by rw [hdir3, hdir2, Function.update_of_ne (by simp)]; exact hnone1 _) (by omega)
  rw [show s3.mem.free.length - 65 = 56937 by rw [need] at hlen2; omega] at hdense4
  obtain ⟨s5, hs5, hdir5, hdense5⟩ := exists_allocuvm hdense4 hlt hneed
  have hreach := Run.Reaches.head hs3 (.head hs4 (.head hs5 (.refl s5)))
  refine ⟨s5, kpgdir, d, .head hs1 (.head hs2 hreach), ?_, ?_, ?_, hdense5⟩
  · rw [hdir5, hdir4, Function.update_of_ne (by simp), hdir3, hdir2, Function.update_self]
  · rw [hdir5, hdir4, Function.update_self]
  · intro n hn
    rw [hdir5, hdir4, Function.update_of_ne (by simpa using hn), hdir3, hdir2,
      Function.update_of_ne (by simp)]
    exact hnone1 _

/-- A process with two pages shares the kernel's half of `kpgdir`, and its second page is one that a
call has mapped. -/
theorem kernel_half_fixed_first :
    ∃ s kpgdir d, Run.Reaches (Spaces.step sampleImage) (start sampleImage fun _ => fill 0) s ∧
      s.dir none = some kpgdir ∧ s.dir (some 0) = some d ∧
      pteAt s.mem d (KERNBASE / PGSIZE) = pteAt s.mem kpgdir (KERNBASE / PGSIZE) ∧
      pteAt s.mem d 1 % 2 = 1 ∧ s.Ranged (some 0) 1 := by
  obtain ⟨s, kpgdir, d, hreach, hk, hx, -, hdense⟩ :=
    exists_first (fun _ => fill 0) (p := 2) (by decide) (by decide)
  have hhalf := kernel_half_fixed (fun _ => fill 0) hreach hk hx
    (show KERNBASE < 2 ^ 32 by decide)
  have hpage := kernel_half_fixed (fun _ => fill 0) hreach hk hx (show PGSIZE < 2 ^ 32 by decide)
  have hodd : pteAt s.mem d 1 % 2 = 1 := by
    obtain ⟨f, hf⟩ := hdense.mapped 1 (by norm_num)
    rw [hf, entry_odd]
  exact ⟨s, kpgdir, d, hreach, hk, hx, (hhalf.1 le_rfl).1, hodd, hpage.2 (by decide) hodd⟩

end Spaces

end Vm
end Xv6
