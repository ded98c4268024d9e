import Xv6.Umalloc.FreeList

/-! The search of `malloc`, and the growth of the heap. -/
namespace Xv6

namespace Umalloc

variable {base top : ℕ} {h : Heap} {fs live : List Extent} {b : Extent}

theorem Good.ascending (h' : Good base top h fs live) : (base :: addrs fs).Pairwise (· < ·) := by
  refine List.pairwise_cons.mpr ⟨fun x hx => ?_,
    h'.sorted.addrs fun c hc => h'.tiles.pos c (by simp [hc])⟩
  obtain ⟨c, hc, rfl⟩ := mem_addrs.mp hx
  have := h'.above c (by simp [hc])
  omega

theorem Good.nodup (h' : Good base top h fs live) : (base :: addrs fs).Nodup :=
  h'.ascending.imp Nat.ne_of_lt

theorem Good.freep_ne (h' : Good base top h fs live) (hpos : 0 < base) : h.freep ≠ 0 := by
  rcases List.mem_cons.mp h'.freep with heq | hmem
  · omega
  · obtain ⟨c, hc, heq⟩ := mem_addrs.mp hmem
    have := h'.above c (by simp [hc])
    omega

theorem Good.take_all {prevp : ℕ} (h' : Good base top h fs live) (hb : b ∈ fs)
    (hprev : prevp ∈ base :: addrs fs) (hptr : h.ptr prevp = b.lo) :
    ∃ fs', Good base top { h.setPtr prevp (h.ptr b.lo) with freep := prevp } fs' (b :: live) := by
  obtain ⟨l₁, l₂, rfl⟩ := List.append_of_mem hb
  have hring := h'.ring
  rw [addrs_append, addrs_cons] at hring
  obtain ⟨hleft, hright⟩ := Leads.append_iff.mp hring
  have hnodup := h'.nodup
  have hlast : prevp = lastOf base l₁ := by
    refine h'.ring.injective hnodup hprev ?_ (hptr.trans hleft.next_last.symm)
    rw [addrs_append, ← List.cons_append]
    exact List.mem_append_left _ (lastOf_mem base l₁)
  subst hlast
  rw [addrs_append, addrs_cons, ← List.cons_append] at hnodup
  have hnot : lastOf base l₁ ∉ b.lo :: addrs l₂ := fun hmem =>
    (List.nodup_append.mp hnodup).2.2 _ (lastOf_mem base l₁) _ hmem rfl
  have hne : b.lo ≠ lastOf base l₁ := fun heq => hnot (heq ▸ List.mem_cons_self)
  have hptr' : Heap.ptr { h.setPtr (lastOf base l₁) (h.ptr b.lo) with freep := lastOf base l₁ } =
      Function.update h.ptr (lastOf base l₁) (h.ptr b.lo) := Heap.ptr_setPtr _ _ _
  have hsize : Heap.size { h.setPtr (lastOf base l₁) (h.ptr b.lo) with
      freep := lastOf base l₁ } = h.size := Heap.size_setPtr _ _ _
  have hperm : (l₁ ++ b :: l₂ ++ live).Perm (l₁ ++ l₂ ++ b :: live) := by
    refine List.perm_iff_count.mpr fun e => ?_
    simp only [List.count_append, List.count_cons]
    omega
  refine ⟨l₁ ++ l₂, ?_, ?_, ?_, ?_, ?_, ?_, ?_, h'.tiles.perm hperm⟩
  · rw [hptr', addrs_append]
    refine Leads.splice (c := b.lo) ?_ (hright.update hnot _)
    rw [Function.update_of_ne hne]
    exact hleft.retarget (List.nodup_append.mp hnodup).1 _
  · rw [hsize]
    exact h'.empty
  · rw [addrs_append, ← List.cons_append]
    exact List.mem_append_left _ (lastOf_mem base l₁)
  · refine h'.sorted.sublist ?_
    simp
  · intro c hc
    rw [hsize]
    exact h'.measured c (hperm.mem_iff.mpr hc)
  · exact fun c hc => h'.above c (hperm.mem_iff.mpr hc)
  · exact fun c hc => h'.below c (hperm.mem_iff.mpr hc)

theorem Good.take_end {prevp mid n : ℕ} (h' : Good base top h fs live) (hb : b ∈ fs)
    (hprev : prevp ∈ base :: addrs fs) (hn : 0 < n) (hmid : mid + 8 * n = b.hi) (hlt : b.lo < mid) :
    ∃ fs', Good base top
      { (h.setSize b.lo (h.size b.lo - n)).setSize mid n with freep := prevp } fs'
      (⟨mid, b.hi⟩ :: live) := by
  obtain ⟨l₁, l₂, rfl⟩ := List.append_of_mem hb
  have hmeasured : b.lo + 8 * h.size b.lo = b.hi := h'.measured b (by simp)
  have hbelow : b.hi ≤ top := h'.below b (by simp)
  have habove : base + 8 ≤ b.lo := h'.above b (by simp)
  have hptr : Heap.ptr { (h.setSize b.lo (h.size b.lo - n)).setSize mid n with freep := prevp } =
      h.ptr := (Heap.ptr_setSize _ _ _).trans (Heap.ptr_setSize _ _ _)
  have hsize : Heap.size { (h.setSize b.lo (h.size b.lo - n)).setSize mid n with freep := prevp } =
      Function.update (Function.update h.size b.lo (h.size b.lo - n)) mid n := by
    refine (Heap.size_setSize _ _ _).trans ?_
    rw [Heap.size_setSize]
  have hperm : (l₁ ++ b :: l₂ ++ live).Perm (b :: (l₁ ++ l₂ ++ live)) := by
    simp [List.append_assoc, List.perm_middle]
  have hback : (⟨b.lo, mid⟩ :: ⟨mid, b.hi⟩ :: (l₁ ++ l₂ ++ live)).Perm
      (l₁ ++ ⟨b.lo, mid⟩ :: l₂ ++ ⟨mid, b.hi⟩ :: live) := by
    refine List.perm_iff_count.mpr fun e => ?_
    simp only [List.count_append, List.count_cons]
    omega
  have htiles := (h'.tiles.perm hperm).split hlt (by omega : mid < b.hi)
  have hne : ∀ c ∈ l₁ ++ l₂ ++ live, c.lo ≠ b.lo ∧ c.lo ≠ mid := by
    intro c hc
    refine ⟨htiles.lo_ne (List.mem_cons_of_mem _ hc), ?_⟩
    exact (htiles.perm (List.Perm.swap _ _ _)).lo_ne (List.mem_cons_of_mem _ hc)
  have hmem : ∀ c ∈ l₁ ++ l₂ ++ live, c ∈ l₁ ++ b :: l₂ ++ live := fun c hc =>
    hperm.mem_iff.mpr (List.mem_cons_of_mem b hc)
  have hcases : ∀ c ∈ l₁ ++ ⟨b.lo, mid⟩ :: l₂ ++ ⟨mid, b.hi⟩ :: live,
      c = ⟨b.lo, mid⟩ ∨ c = ⟨mid, b.hi⟩ ∨ c ∈ l₁ ++ l₂ ++ live := by
    intro c hc
    simpa using hback.mem_iff.mpr hc
  refine ⟨l₁ ++ ⟨b.lo, mid⟩ :: l₂, ?_, ?_, ?_, ?_, ?_, ?_, ?_, htiles.perm hback⟩
  · rw [hptr]
    simpa using h'.ring
  · rw [hsize, Function.update_of_ne (by omega), Function.update_of_ne (by omega)]
    exact h'.empty
  · simpa using hprev
  · obtain ⟨hsorted₁, hsorted₂, hcross⟩ := List.pairwise_append.mp h'.sorted
    obtain ⟨hb₂, hsorted₂⟩ := List.pairwise_cons.mp hsorted₂
    refine List.pairwise_append.mpr ⟨hsorted₁, List.pairwise_cons.mpr ⟨fun d hd => ?_, hsorted₂⟩,
      fun c hc d hd => ?_⟩
    · have := hb₂ d hd
      dsimp only
      omega
    · rcases List.mem_cons.mp hd with rfl | hd
      · exact hcross c hc b List.mem_cons_self
      · exact hcross c hc d (List.mem_cons_of_mem b hd)
  · intro c hc
    rw [hsize]
    rcases hcases c hc with rfl | rfl | hc
    · dsimp only
      rw [Function.update_of_ne (by omega), Function.update_self]
      omega
    · dsimp only
      rw [Function.update_self]
      exact hmid
    · rw [Function.update_of_ne (hne c hc).2, Function.update_of_ne (hne c hc).1]
      exact h'.measured c (hmem c hc)
  · intro c hc
    rcases hcases c hc with rfl | rfl | hc
    · exact habove
    · dsimp only
      omega
    · exact h'.above c (hmem c hc)
  · intro c hc
    rcases hcases c hc with rfl | rfl | hc
    · dsimp only
      omega
    · exact hbelow
    · exact h'.below c (hmem c hc)

theorem Good.take {prevp n : ℕ} (h' : Good base top h fs live) (htop : top < 2 ^ 32) (hb : b ∈ fs)
    (hprev : prevp ∈ base :: addrs fs) (hptr : h.ptr prevp = b.lo) (hn : 0 < n)
    (hfits : n ≤ h.size b.lo) :
    ∃ fs' c, Good base top (h.take n prevp b.lo).2 fs' (c :: live) ∧
      (h.take n prevp b.lo).1 = c.lo + 8 ∧ c.hi = c.lo + 8 * n := by
  have hmeasured : b.lo + 8 * h.size b.lo = b.hi := h'.measured b (by simp [hb])
  have hbelow : b.hi ≤ top := h'.below b (by simp [hb])
  by_cases heq : h.size b.lo = n
  · obtain ⟨fs', hgood⟩ := h'.take_all hb hprev hptr
    refine ⟨fs', b, ?_, ?_, by omega⟩
    · rw [Heap.take, if_pos heq]
      exact hgood
    · rw [Heap.take, if_pos heq]
      exact plus_eq (by omega)
  · obtain ⟨mid, hmid⟩ : ∃ mid, mid + 8 * n = b.hi := ⟨b.hi - 8 * n, by omega⟩
    obtain ⟨fs', hgood⟩ := h'.take_end hb hprev hn hmid (by omega)
    have hplus : plus b.lo ((h.setSize b.lo (h.size b.lo - n)).size b.lo) = mid := by
      rw [Heap.size_setSize, Function.update_self, plus_eq (by omega)]
      omega
    refine ⟨fs', ⟨mid, b.hi⟩, ?_, ?_, hmid.symm⟩
    · rw [Heap.take, if_neg heq]
      simp only [hplus]
      exact hgood
    · rw [Heap.take, if_neg heq]
      simp only [hplus]
      exact plus_eq (by omega)

/-- What `sbrk` has to do for the allocator: fail, or return memory above all it has returned
before, below the limit of the address space. -/
structure Sbrk.Fresh {K : Type*} (sbrk : Sbrk K) (limit : ℕ) : Prop where
  fails : ∀ k n k', 0 < n → n < 2 ^ 31 → sbrk.top k ≤ limit →
    sbrk.call k n = some (none, k') → sbrk.top k' = sbrk.top k
  grows : ∀ k n p k', 0 < n → n < 2 ^ 31 → sbrk.top k ≤ limit →
    sbrk.call k n = some (some p, k') →
    sbrk.top k ≤ p ∧ p + n ≤ sbrk.top k' ∧ sbrk.top k' ≤ limit

/-- No block of the free list has `n` units. -/
def Heap.Lacks (h : Heap) (n : ℕ) : Prop := h.freep = 0 ∨ ∀ i, h.size (h.ptr^[i] h.freep) < n

section search

variable {K : Type*} {sbrk : Sbrk K} {k k' : K} {n fuel limit : ℕ}

theorem search_take {x q : ℕ} (hfits : n ≤ h.size q) :
    h.search sbrk n (fuel + 1) k x q = some ((h.take n x q).1, (h.take n x q).2, k) := by
  rw [Heap.search, if_pos hfits]

theorem search_advance {l : List ℕ} {x y : ℕ} (hpath : Leads h.ptr x l y)
    (hsmall : ∀ z ∈ l, h.size z < n ∧ z ≠ h.freep) :
    h.search sbrk n (fuel + l.length) k x (h.ptr x) =
      h.search sbrk n fuel k ((x :: l).getLast (List.cons_ne_nil x l)) y := by
  induction l generalizing x with
  | nil =>
    have hnext : h.ptr x = y := hpath
    rw [hnext]
    rfl
  | cons c l ih =>
    obtain ⟨hsize, hne⟩ := hsmall c List.mem_cons_self
    rw [hpath.1, List.length_cons, ← Nat.add_assoc, Heap.search, if_neg (by omega), if_neg hne,
      ih hpath.2 fun z hz => hsmall z (List.mem_cons_of_mem c hz)]
    rfl

/-- The free list as the search goes through it. -/
theorem Good.rotation (h' : Good base top h fs live) :
    ∃ l, Leads h.ptr h.freep l h.freep ∧ (h.freep :: l).Perm (base :: addrs fs) ∧
      (∀ z ∈ l, z ≠ h.freep) ∧ l.length = fs.length := by
  obtain ⟨l, hring, hperm⟩ := h'.ring.rotate h'.freep
  have hnodup := List.nodup_cons.mp (hperm.nodup_iff.mpr h'.nodup)
  refine ⟨l, hring, hperm, fun z hz heq => hnodup.1 (heq ▸ hz), ?_⟩
  simpa [addrs] using hperm.length_eq

/-- If a block is large enough, the first such block behind `freep` is taken. -/
theorem Good.search_fits (sbrk : Sbrk K) (k : K) (h' : Good base top h fs live) (hn : 0 < n)
    (hb : b ∈ fs)
    (hfits : n ≤ h.size b.lo) (hfuel : fs.length < fuel) :
    ∃ prevp, ∃ c ∈ fs, prevp ∈ base :: addrs fs ∧ h.ptr prevp = c.lo ∧ n ≤ h.size c.lo ∧
      h.search sbrk n fuel k h.freep (h.ptr h.freep) =
        some ((h.take n prevp c.lo).1, (h.take n prevp c.lo).2, k) := by
  obtain ⟨l, hring, hperm, hne, hlen⟩ := h'.rotation
  have hfound : (l ++ [h.freep]).find? (fun z => n ≤ h.size z) ≠ none := by
    rw [ne_eq, List.find?_eq_none, not_forall]
    refine ⟨b.lo, fun hno => ?_⟩
    have hmem : b.lo ∈ h.freep :: l :=
      hperm.mem_iff.mpr (List.mem_cons_of_mem base (mem_addrs.mpr ⟨b, hb, rfl⟩))
    have hin : b.lo ∈ l ++ [h.freep] := by simpa [or_comm] using hmem
    exact hno hin (by simpa using hfits)
  obtain ⟨q, hq⟩ := Option.ne_none_iff_exists'.mp hfound
  obtain ⟨hqfits, l₁, l₂, heq, hsmall⟩ := List.find?_eq_some_iff_append.mp hq
  have hpath := hring.upto heq
  have hmem : ∀ z ∈ l₁ ++ q :: l₂, z ∈ base :: addrs fs := by
    intro z hz
    rw [← heq] at hz
    exact hperm.mem_iff.mp (by simpa [or_comm] using hz)
  have hqbase : q ≠ base := by
    rintro rfl
    have hempty := h'.empty
    simp at hqfits
    omega
  obtain ⟨c, hc, rfl⟩ := mem_addrs.mp ((List.mem_cons.mp (hmem q (by simp))).resolve_left hqbase)
  have hl₁ : l₁.length ≤ l.length := by
    have := congrArg List.length heq
    simp at this
    omega
  have hsub : l₁ <+: l :=
    List.prefix_of_prefix_length_le ⟨_, heq.symm⟩ (List.prefix_append l [h.freep]) hl₁
  refine ⟨(h.freep :: l₁).getLast (List.cons_ne_nil _ _), c, hc, ?_, hpath.next_last,
    by simpa using hqfits, ?_⟩
  · rcases List.mem_cons.mp (List.getLast_mem (List.cons_ne_nil h.freep l₁)) with hlast | hlast
    · rw [hlast]
      exact h'.freep
    · exact hmem _ (List.mem_append_left _ hlast)
  · obtain ⟨m, rfl⟩ : ∃ m, fuel = m + 1 + l₁.length := ⟨fuel - 1 - l₁.length, by omega⟩
    rw [search_advance hpath fun z hz => ⟨by simpa using hsmall z hz, ?_⟩,
      search_take (by simpa using hqfits)]
    exact hne z (hsub.subset hz)

theorem Good.add_region {hp nu top' : ℕ} (h' : Good base top h fs live) (hbase : base + 8 ≤ top)
    (hp_le : top ≤ hp) (hnu : 0 < nu) (htop : hp + nu * 8 ≤ top') :
    Good base top' (Heap.setSize { h with regions := ⟨hp, hp + nu * 8⟩ :: h.regions } hp nu) fs
      (⟨hp, hp + nu * 8⟩ :: live) := by
  have hsize : Heap.size (Heap.setSize { h with regions := ⟨hp, hp + nu * 8⟩ :: h.regions } hp nu) =
      Function.update h.size hp nu := Heap.size_setSize _ _ _
  have hptr : Heap.ptr (Heap.setSize { h with regions := ⟨hp, hp + nu * 8⟩ :: h.regions } hp nu) =
      h.ptr := Heap.ptr_setSize _ _ _
  have hperm : (⟨hp, hp + nu * 8⟩ :: (fs ++ live)).Perm (fs ++ ⟨hp, hp + nu * 8⟩ :: live) :=
    List.perm_middle.symm
  have hlt : ∀ c ∈ fs ++ live, c.lo < hp := by
    intro c hc
    have hcpos := h'.tiles.pos c hc
    have hctop := h'.below c hc
    omega
  have hcases : ∀ c ∈ fs ++ ⟨hp, hp + nu * 8⟩ :: live, c = ⟨hp, hp + nu * 8⟩ ∨ c ∈ fs ++ live :=
    fun c hc => List.mem_cons.mp (hperm.mem_iff.mpr hc)
  refine ⟨hptr ▸ h'.ring, ?_, h'.freep, h'.sorted, fun c hc => ?_, fun c hc => ?_,
    fun c hc => ?_, ?_⟩
  · rw [hsize, Function.update_of_ne (by omega)]
    exact h'.empty
  · rw [hsize]
    rcases hcases c hc with rfl | hc
    · dsimp only
      rw [Function.update_self, Nat.mul_comm]
    · rw [Function.update_of_ne (by have := hlt c hc; omega)]
      exact h'.measured c hc
  · rcases hcases c hc with rfl | hc
    · dsimp only
      omega
    · exact h'.above c hc
  · rcases hcases c hc with rfl | hc
    · exact htop
    · have := h'.below c hc
      omega
  · refine (h'.tiles.grow ?_ fun c hc => ?_).perm hperm
    · dsimp only
      omega
    · have := h'.below c hc
      dsimp only
      omega

theorem growth_pos (n : ℕ) : 0 < growth n ∧ n ≤ growth n := by
  unfold growth
  split <;> omega

/-- `morecore`: `sbrk` does not return, or fails, or the list has a large enough block. -/
theorem Good.morecore (h' : Good base (sbrk.top k) h fs live) (hbase : base + 8 ≤ sbrk.top k)
    (hfresh : sbrk.Fresh limit) (hlimit : limit < 2 ^ 32) (htop : sbrk.top k ≤ limit)
    (hn : growth n * 8 < 2 ^ 31) (hfuel : fs.length < fuel) :
    (sbrk.call k (growth n * 8) = none ∧ h.morecore sbrk k fuel n = none) ∨
    (∃ k', sbrk.call k (growth n * 8) = some (none, k') ∧
      h.morecore sbrk k fuel n = some (0, h, k') ∧ sbrk.top k' = sbrk.top k) ∨
    ∃ h₁ k' fs', h.morecore sbrk k fuel n = some (h₁.freep, h₁, k') ∧
      Good base (sbrk.top k') h₁ fs' live ∧ (∃ c ∈ fs', n ≤ h₁.size c.lo) ∧
      fs'.length ≤ fs.length + 1 ∧ sbrk.top k ≤ sbrk.top k' ∧ sbrk.top k' ≤ limit ∧
      (∀ r ∈ h₁.regions, r ∈ h.regions ∨ sbrk.top k ≤ r.lo) ∧
      ∃ hp, sbrk.call k (growth n * 8) = some (some hp, k') := by
  have hpos := growth_pos n
  have hmod : growth n * 8 % 2 ^ 32 = growth n * 8 := Nat.mod_eq_of_lt (by omega)
  cases hcall : sbrk.call k (growth n * 8) with
  | none => exact .inl ⟨rfl, by simp only [Heap.morecore, hmod, hcall]⟩
  | some r =>
    obtain ⟨r, k'⟩ := r
    cases r with
    | none =>
      refine .inr (.inl ⟨k', rfl, by simp only [Heap.morecore, hmod, hcall], ?_⟩)
      exact hfresh.fails k _ k' (by omega) hn htop hcall
    | some hp =>
      obtain ⟨hle, hfit, hlim⟩ := hfresh.grows k _ hp k' (by omega) hn htop hcall
      have hregion := h'.add_region hbase hle hpos.1 hfit
      obtain ⟨h₁, fs', hfree, hgood, ⟨c, hc, hclo, hchi⟩, hlen, hregions⟩ :=
        hregion.free (by omega) hfuel
      have hplus : plus hp 1 = hp + 8 := plus_eq (by omega)
      refine .inr (.inr ⟨h₁, k', fs', ?_, hgood, ⟨c, hc, ?_⟩, hlen, by omega, hlim,
        fun r hr => ?_, hp, rfl⟩)
      · simp only [Heap.morecore, hmod, hcall, hplus]
        rw [hfree]
        rfl
      · have hmeasured := hgood.measured c (by simp [hc])
        dsimp only at hclo hchi
        omega
      · rw [hregions] at hr
        rcases List.mem_cons.mp hr with rfl | hr
        · exact .inr hle
        · exact .inl hr

theorem take_regions {n prevp p : ℕ} : (h.take n prevp p).2.regions = h.regions := by
  rw [Heap.take]
  split_ifs <;> rfl

/-- How `malloc` ends: `sbrk` does not return, or fails, or there is a new live block. -/
structure Returns (sbrk : Sbrk K) (base limit : ℕ) (h : Heap) (k : K) (live : List Extent)
    (n ap : ℕ) (h₁ : Heap) (k₁ : K) (fs₁ : List Extent) (c : Extent) : Prop where
  good : Good base (sbrk.top k₁) h₁ fs₁ (c :: live)
  pointer : ap = c.lo + 8
  units : c.hi = c.lo + 8 * n
  top : sbrk.top k ≤ sbrk.top k₁
  limit : sbrk.top k₁ ≤ limit
  regions : ∀ r ∈ h₁.regions, r ∈ h.regions ∨ sbrk.top k ≤ r.lo
  kernel : k₁ = k ∨ h.Lacks n ∧ ∃ hp, sbrk.call k (growth n * 8) = some (some hp, k₁)

theorem Good.search (h' : Good base (sbrk.top k) h fs live) (hbase : base + 8 ≤ sbrk.top k)
    (hpos : 0 < base) (hfresh : sbrk.Fresh limit) (hlimit : limit < 2 ^ 32)
    (htop : sbrk.top k ≤ limit) (hn : 0 < n) (hgrowth : growth n * 8 < 2 ^ 31)
    (hfuel : 2 * fs.length + 4 ≤ fuel) :
    (sbrk.call k (growth n * 8) = none ∧
      h.search sbrk n fuel k h.freep (h.ptr h.freep) = none) ∨
    (∃ k', h.Lacks n ∧ sbrk.call k (growth n * 8) = some (none, k') ∧ sbrk.top k' = sbrk.top k ∧
      h.search sbrk n fuel k h.freep (h.ptr h.freep) = some (0, h, k')) ∨
    ∃ ap h₁ k₁ fs₁ c, h.search sbrk n fuel k h.freep (h.ptr h.freep) = some (ap, h₁, k₁) ∧
      Returns sbrk base limit h k live n ap h₁ k₁ fs₁ c := by
  by_cases hfits : ∃ b ∈ fs, n ≤ h.size b.lo
  · obtain ⟨b, hb, hfit⟩ := hfits
    obtain ⟨prevp, c, hc, hprev, hptr, hcfit, hsearch⟩ :=
      h'.search_fits sbrk k hn hb hfit (by omega : fs.length < fuel)
    obtain ⟨fs', e, hgood, hap, hunits⟩ := h'.take (by omega) hc hprev hptr hn hcfit
    exact .inr (.inr ⟨_, _, _, fs', e, hsearch, hgood, hap, hunits, le_rfl, htop,
      fun r hr => .inl (take_regions ▸ hr), .inl rfl⟩)
  · obtain ⟨l, hring, hperm, hne, hlen⟩ := h'.rotation
    have hsmall : ∀ z ∈ h.freep :: l, h.size z < n := by
      intro z hz
      rcases List.mem_cons.mp (hperm.mem_iff.mp hz) with rfl | hz
      · rw [h'.empty]
        exact hn
      · obtain ⟨c, hc, rfl⟩ := mem_addrs.mp hz
        exact not_le.mp fun hle => hfits ⟨c, hc, hle⟩
    have hlacks : h.Lacks n := .inr fun i => hsmall _ (hring.iterate_mem i)
    obtain ⟨m, rfl⟩ : ∃ m, fuel = m + 1 + l.length := ⟨fuel - 1 - l.length, by omega⟩
    rw [search_advance hring fun z hz => ⟨hsmall z (List.mem_cons_of_mem _ hz), hne z hz⟩,
      Heap.search, if_neg (not_le.mpr (hsmall h.freep List.mem_cons_self)), if_pos rfl]
    rcases h'.morecore hbase hfresh hlimit htop hgrowth (by omega : fs.length < m) with
      ⟨hcall, hmore⟩ | ⟨k', hcall, hmore, hsame⟩ |
      ⟨h₁, k', fs', hmore, hgood, ⟨c, hc, hcfit⟩, hlen', hle, hlim, hregions, hcall⟩
    · exact .inl ⟨hcall, by rw [hmore]⟩
    · exact .inr (.inl ⟨k', hlacks, hcall, hsame, by rw [hmore]; rfl⟩)
    · have hfreep := hgood.freep_ne hpos
      obtain ⟨prevp, d, hd, hprev, hptr, hdfit, hsearch⟩ :=
        hgood.search_fits sbrk k' hn hc hcfit (by omega : fs'.length < m)
      obtain ⟨fs₂, e, hgood', hap, hunits⟩ := hgood.take (by omega) hd hprev hptr hn hdfit
      rw [hmore]
      dsimp only
      rw [if_neg hfreep]
      exact .inr (.inr ⟨_, _, _, fs₂, e, hsearch, hgood', hap, hunits, hle, hlim,
        fun r hr => hregions r (take_regions ▸ hr), .inr ⟨hlacks, hcall⟩⟩)

end search

end Umalloc

end Xv6
