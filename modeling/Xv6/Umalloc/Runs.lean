import Xv6.Lib.Run
import Xv6.Umalloc.Malloc

/-! Runs of a program that calls `malloc` and `free`: the heap stays divided into free blocks
and blocks of the program. -/
namespace Xv6

namespace Umalloc

theorem slot_mono {h : Heap} {bp fuel fuel' p q : ℕ} (hle : fuel ≤ fuel')
    (hslot : h.slot bp fuel p = some q) : h.slot bp fuel' p = some q := by
  induction fuel generalizing fuel' p with
  | zero => cases hslot
  | succ n ih =>
    obtain ⟨m, rfl⟩ : ∃ m, fuel' = m + 1 := ⟨fuel' - 1, by omega⟩
    rw [Heap.slot] at hslot ⊢
    split_ifs at hslot ⊢
    · exact hslot
    · exact ih (by omega) hslot

theorem free_mono {h h₁ : Heap} {fuel fuel' ap : ℕ} (hle : fuel ≤ fuel')
    (hfree : h.free fuel ap = some h₁) : h.free fuel' ap = some h₁ := by
  obtain ⟨p, hslot, heq⟩ := Option.map_eq_some_iff.mp hfree
  exact Option.map_eq_some_iff.mpr ⟨p, slot_mono hle hslot, heq⟩

section mono

variable {K : Type*} {sbrk : Sbrk K} {h : Heap} {k : K} {base fuel fuel' nu nbytes prevp p : ℕ}
  {r : ℕ × Heap × K}

theorem morecore_mono (hle : fuel ≤ fuel') (hmore : h.morecore sbrk k fuel nu = some r) :
    h.morecore sbrk k fuel' nu = some r := by
  simp only [Heap.morecore] at hmore ⊢
  split at hmore
  · cases hmore
  · exact hmore
  · obtain ⟨h₁, hfree, heq⟩ := Option.map_eq_some_iff.mp hmore
    exact Option.map_eq_some_iff.mpr ⟨h₁, free_mono hle hfree, heq⟩

theorem search_mono (hle : fuel ≤ fuel') (hsearch : h.search sbrk nu fuel k prevp p = some r) :
    h.search sbrk nu fuel' k prevp p = some r := by
  induction fuel generalizing fuel' h k prevp p with
  | zero => cases hsearch
  | succ n ih =>
    obtain ⟨m, rfl⟩ : ∃ m, fuel' = m + 1 := ⟨fuel' - 1, by omega⟩
    rw [Heap.search] at hsearch ⊢
    split_ifs at hsearch ⊢
    · exact hsearch
    · cases hmore : h.morecore sbrk k n nu with
      | none => simp [hmore] at hsearch
      | some r₁ =>
        rw [hmore] at hsearch
        rw [morecore_mono (by omega) hmore]
        dsimp only at hsearch ⊢
        split_ifs at hsearch ⊢
        · exact hsearch
        · exact ih (by omega) hsearch
    · exact ih (by omega) hsearch

theorem malloc_mono (hle : fuel ≤ fuel') (hmalloc : h.malloc sbrk base k fuel nbytes = some r) :
    h.malloc sbrk base k fuel' nbytes = some r :=
  search_mono hle hmalloc

theorem step_mono {s t : Process K} {e : Call K} (hle : fuel ≤ fuel')
    (hstep : s.step sbrk base fuel e = some t) : s.step sbrk base fuel' e = some t := by
  cases e with
  | malloc nbytes =>
    obtain ⟨r, hmalloc, heq⟩ := Option.map_eq_some_iff.mp hstep
    exact Option.map_eq_some_iff.mpr ⟨r, malloc_mono hle hmalloc, heq⟩
  | free i =>
    rw [Process.step] at hstep ⊢
    cases hi : s.live[i]? with
    | none => simpa [hi] using hstep
    | some b =>
      rw [hi] at hstep
      obtain ⟨h₁, hfree, heq⟩ := Option.map_eq_some_iff.mp hstep
      exact Option.map_eq_some_iff.mpr ⟨h₁, free_mono hle hfree, heq⟩
  | store i a x => exact hstep
  | elsewhere k => exact hstep

theorem exec_mono {s t : Process K} {es : List (Call K)} (hle : fuel ≤ fuel')
    (hrun : Run.exec (Process.step sbrk base fuel) s es = some t) :
    Run.exec (Process.step sbrk base fuel') s es = some t := by
  induction es generalizing s with
  | nil => exact hrun
  | cons e es ih =>
    obtain ⟨u, hu, hrun⟩ := Run.exec_cons hrun
    rw [Run.exec, step_mono hle hu]
    exact ih hrun

end mono

/-- What holds between the calls. Before the first call of `malloc` there is no list. -/
structure Inv {K : Type*} (sbrk : Sbrk K) (base start limit : ℕ) (s : Process K) : Prop where
  room : base + 8 ≤ sbrk.top s.k
  grown : start ≤ sbrk.top s.k
  fresh : ∀ r ∈ s.heap.regions, start ≤ r.lo
  bounded : sbrk.top s.k ≤ limit
  usable : ∀ b ∈ s.live, b.block.lo + 8 + b.nbytes ≤ b.block.hi
  heap : (s.heap.freep = 0 ∧ s.heap.regions = [] ∧ s.live = []) ∨
    ∃ fs, Good base (sbrk.top s.k) s.heap fs (s.live.map Live.block)

/-- The request and its header are fewer than 2^31 bytes. -/
def Small (nbytes : ℕ) : Prop := nbytes ≤ 2 ^ 31 - 16

def Call.Small {K : Type*} : Call K → Prop
  | .malloc nbytes => Umalloc.Small nbytes
  | _ => True

theorem Small.units {nbytes : ℕ} (h : Small nbytes) :
    growth (Heap.unitsFor nbytes) * 8 < 2 ^ 31 ∧ nbytes + 8 ≤ 8 * Heap.unitsFor nbytes := by
  unfold Small at h
  unfold Heap.unitsFor growth
  split <;> omega

section runs

variable {K : Type*} {sbrk : Sbrk K} {base start limit nbytes : ℕ} {s t : Process K}

theorem Inv.malloc (h : Inv sbrk base start limit s) (hpos : 0 < base) (hfresh : sbrk.Fresh limit)
    (hlimit : limit < 2 ^ 32) (hgrowth : growth (Heap.unitsFor nbytes) * 8 < 2 ^ 31) :
    ∃ F, ∀ fuel ≥ F,
      (sbrk.call s.k (growth (Heap.unitsFor nbytes) * 8) = none ∧
        s.heap.malloc sbrk base s.k fuel nbytes = none) ∨
      (∃ h₁ k₁ fs, s.heap.Lacks (Heap.unitsFor nbytes) ∧
        sbrk.call s.k (growth (Heap.unitsFor nbytes) * 8) = some (none, k₁) ∧
        sbrk.top k₁ = sbrk.top s.k ∧
        s.heap.malloc sbrk base s.k fuel nbytes = some (0, h₁, k₁) ∧
        Good base (sbrk.top k₁) h₁ fs (s.live.map Live.block) ∧ h₁.regions = s.heap.regions) ∨
      ∃ ap h₁ k₁ fs c, s.heap.malloc sbrk base s.k fuel nbytes = some (ap, h₁, k₁) ∧
        Returns sbrk base limit s.heap s.k (s.live.map Live.block) (Heap.unitsFor nbytes) ap h₁ k₁
          fs c := by
  have hunits : 0 < Heap.unitsFor nbytes := Nat.succ_pos _
  obtain ⟨h₀, hstart, hregions₀, hlacks, fs, hgood⟩ : ∃ h₀ : Heap,
      (∀ fuel, s.heap.malloc sbrk base s.k fuel nbytes =
        h₀.search sbrk (Heap.unitsFor nbytes) fuel s.k h₀.freep (h₀.ptr h₀.freep)) ∧
      h₀.regions = s.heap.regions ∧
      (h₀.Lacks (Heap.unitsFor nbytes) → s.heap.Lacks (Heap.unitsFor nbytes)) ∧
      ∃ fs, Good base (sbrk.top s.k) h₀ fs (s.live.map Live.block) := by
    rcases h.heap with ⟨hfreep, hregions, hlive⟩ | ⟨fs, hgood⟩
    · refine ⟨{ s.heap with cell := Function.update s.heap.cell base ⟨base, 0⟩, freep := base },
        fun fuel => by rw [Heap.malloc, if_pos hfreep], rfl, fun _ => .inl hfreep, [], ?_⟩
      have hcell : Function.update s.heap.cell base ⟨base, 0⟩ base = ⟨base, 0⟩ :=
        Function.update_self _ _ _
      refine ⟨?_, ?_, List.mem_singleton_self base, List.Pairwise.nil, ?_, ?_, ?_, ?_⟩
      · exact congrArg Header.ptr hcell
      · exact congrArg Header.size hcell
      · simp [hlive, Measured]
      · simp [hlive]
      · simp [hlive]
      · simpa [hlive, hregions] using Extent.Tiles.nil
    · exact ⟨s.heap, fun fuel => by rw [Heap.malloc, if_neg (hgood.freep_ne hpos)], rfl,
        id, fs, hgood⟩
  refine ⟨2 * fs.length + 4, fun fuel hfuel => ?_⟩
  rw [hstart]
  rcases hgood.search h.room hpos hfresh hlimit h.bounded hunits hgrowth hfuel with
    ⟨hcall, hnone⟩ | ⟨k', hlack, hcall, hsame, hzero⟩ | hsome
  · exact .inl ⟨hcall, hnone⟩
  · exact .inr (.inl ⟨h₀, k', fs, hlacks hlack, hcall, hsame, hzero, hsame ▸ hgood, hregions₀⟩)
  · obtain ⟨ap, h₁, k₁, fs₁, c, heq, hret⟩ := hsome
    exact .inr (.inr ⟨ap, h₁, k₁, fs₁, c, heq, hret.good, hret.pointer, hret.units, hret.top,
      hret.limit, hregions₀ ▸ hret.regions, hret.kernel.imp_right (And.imp_left hlacks)⟩)

/-- Whatever the fuel, a call that returns has failed in `sbrk` or has a new live block. -/
theorem Inv.malloc_some (h : Inv sbrk base start limit s) (hpos : 0 < base)
    (hfresh : sbrk.Fresh limit) (hlimit : limit < 2 ^ 32)
    (hgrowth : growth (Heap.unitsFor nbytes) * 8 < 2 ^ 31) {fuel ap : ℕ} {h₁ : Heap} {k₁ : K}
    (hmalloc : s.heap.malloc sbrk base s.k fuel nbytes = some (ap, h₁, k₁)) :
    (ap = 0 ∧ s.heap.Lacks (Heap.unitsFor nbytes) ∧
      sbrk.call s.k (growth (Heap.unitsFor nbytes) * 8) = some (none, k₁)) ∨
    ∃ fs c, Returns sbrk base limit s.heap s.k (s.live.map Live.block) (Heap.unitsFor nbytes) ap h₁
      k₁ fs c := by
  obtain ⟨F, hF⟩ := h.malloc hpos hfresh hlimit hgrowth
  have hmore := malloc_mono (Nat.le_max_left fuel F) hmalloc
  rcases hF (max fuel F) (Nat.le_max_right fuel F) with ⟨-, hnone⟩ |
    ⟨h₂, k₂, fs, hlack, hcall, -, heq, -⟩ | ⟨ap₂, h₂, k₂, fs, c, heq, hret⟩
  · simp [hnone] at hmore
  · rw [heq, Option.some.injEq, Prod.mk.injEq, Prod.mk.injEq] at hmore
    obtain ⟨rfl, rfl, rfl⟩ := hmore
    exact .inl ⟨rfl, hlack, hcall⟩
  · rw [heq, Option.some.injEq, Prod.mk.injEq, Prod.mk.injEq] at hmore
    obtain ⟨rfl, rfl, rfl⟩ := hmore
    exact .inr ⟨fs, c, hret⟩

theorem Returns.block {h : Heap} {k : K} {live : List Extent} {n ap : ℕ} {h₁ : Heap} {k₁ : K}
    {fs₁ : List Extent} {c : Extent}
    (h' : Returns sbrk base limit h k live n ap h₁ k₁ fs₁ c) :
    h₁.block ap = c ∧ ap ≠ 0 := by
  have hmeasured := h'.good.measured c (by simp)
  refine ⟨?_, by rw [h'.pointer]; omega⟩
  rw [h'.pointer, Heap.block, Nat.add_sub_cancel, hmeasured]

theorem Returns.fresh {h : Heap} {k : K} {live : List Extent} {n ap : ℕ} {h₁ : Heap} {k₁ : K}
    {fs₁ : List Extent} {c : Extent} (h' : Returns sbrk base limit h k live n ap h₁ k₁ fs₁ c)
    (hgrown : start ≤ sbrk.top k) (hfresh : ∀ r ∈ h.regions, start ≤ r.lo) :
    ∀ r ∈ h₁.regions, start ≤ r.lo := by
  intro r hr
  rcases h'.regions r hr with hold | hnew
  · exact hfresh r hold
  · exact hgrown.trans hnew

theorem Good.perm {top : ℕ} {h : Heap} {fs live live' : List Extent} (h' : Good base top h fs live)
    (hperm : live.Perm live') : Good base top h fs live' where
  ring := h'.ring
  empty := h'.empty
  freep := h'.freep
  sorted := h'.sorted
  measured := fun c hc => h'.measured c ((hperm.append_left fs).mem_iff.mpr hc)
  above := fun c hc => h'.above c ((hperm.append_left fs).mem_iff.mpr hc)
  below := fun c hc => h'.below c ((hperm.append_left fs).mem_iff.mpr hc)
  tiles := h'.tiles.perm (hperm.append_left fs)

theorem Good.store {top a : ℕ} {h : Heap} {fs live : List Extent} {b : Extent}
    (h' : Good base top h fs live) (hb : b ∈ live) (hlo : b.lo < a) (hhi : a < b.hi) (x : Header) :
    Good base top { h with cell := Function.update h.cell a x } fs live := by
  have hne : ∀ c ∈ fs ++ live, c.lo ≠ a := by
    intro c hc heq
    by_cases hcb : c = b
    · subst hcb
      omega
    · have happ := h'.tiles.apart_of_ne (List.mem_append_right _ hb) hc hcb
      have hcpos := h'.tiles.pos c hc
      simp only [Extent.Apart] at happ
      omega
  have hbase : base ≠ a := by
    have := h'.above b (by simp [hb])
    omega
  have hptr : ∀ p ≠ a, Heap.ptr { h with cell := Function.update h.cell a x } p = h.ptr p :=
    fun p hp => congrArg Header.ptr (Function.update_of_ne hp _ _)
  have hsize : ∀ p ≠ a, Heap.size { h with cell := Function.update h.cell a x } p = h.size p :=
    fun p hp => congrArg Header.size (Function.update_of_ne hp _ _)
  refine ⟨h'.ring.congr fun p hp => hptr p ?_, ?_, h'.freep, h'.sorted, fun c hc => ?_, h'.above,
    h'.below, h'.tiles⟩
  · rcases List.mem_cons.mp hp with rfl | hp
    · exact hbase
    · obtain ⟨c, hc, rfl⟩ := mem_addrs.mp hp
      exact hne c (List.mem_append_left _ hc)
  · rw [hsize base hbase]
    exact h'.empty
  · rw [hsize c.lo (hne c hc)]
    exact h'.measured c hc

theorem Inv.step (h : Inv sbrk base start limit s) (hpos : 0 < base) (hfresh : sbrk.Fresh limit)
    (hlimit : limit < 2 ^ 32) {e : Call K} (hsmall : e.Small) :
    ∃ F, ∀ fuel ≥ F, ((∃ n, sbrk.call s.k n = none) ∧ s.step sbrk base fuel e = none) ∨
      ∃ t, s.step sbrk base fuel e = some t ∧ Inv sbrk base start limit t := by
  cases e with
  | malloc nbytes =>
    obtain ⟨hgrowth, hunits⟩ := Small.units hsmall
    obtain ⟨F, hF⟩ := h.malloc hpos hfresh hlimit hgrowth
    refine ⟨F, fun fuel hfuel => ?_⟩
    rcases hF fuel hfuel with ⟨hcall, hnone⟩ | ⟨h₁, k₁, fs, -, -, hsame, heq, hgood, hregions⟩ |
      ⟨ap, h₁, k₁, fs, c, heq, hret⟩
    · exact .inl ⟨⟨_, hcall⟩, by rw [Process.step, hnone]; rfl⟩
    · refine .inr ⟨_, by rw [Process.step, heq]; rfl, ?_⟩
      exact ⟨hsame ▸ h.room, hsame ▸ h.grown, hregions ▸ h.fresh, hsame ▸ h.bounded, h.usable,
        .inr ⟨fs, hgood⟩⟩
    · obtain ⟨hblock, hap⟩ := hret.block
      refine .inr ⟨_, by rw [Process.step, heq]; rfl, ?_⟩
      dsimp only
      rw [if_neg hap, hblock]
      refine ⟨h.room.trans hret.top, h.grown.trans hret.top, hret.fresh h.grown h.fresh, hret.limit,
        List.forall_mem_cons.mpr ⟨?_, h.usable⟩,
        .inr ⟨fs, hret.good⟩⟩
      have := hret.units
      dsimp only
      omega
  | free i =>
    cases hi : s.live[i]? with
    | none => exact ⟨0, fun fuel _ => .inr ⟨s, by rw [Process.step, hi], h⟩⟩
    | some b =>
      have hmem : b ∈ s.live := List.mem_of_getElem? hi
      rcases h.heap with ⟨-, -, hlive⟩ | ⟨fs, hgood⟩
      · simp [hlive] at hmem
      · have hperm : (s.live.map Live.block).Perm
            (b.block :: (s.live.eraseIdx i).map Live.block) := by
          obtain ⟨hlt, rfl⟩ := List.getElem?_eq_some_iff.mp hi
          exact (List.getElem_cons_eraseIdx_perm hlt).symm.map Live.block
        refine ⟨fs.length + 1, fun fuel hfuel => .inr ?_⟩
        obtain ⟨h₁, fs', hfree, hgood', -, -, hregions⟩ :=
          (hgood.perm hperm).free (lt_of_le_of_lt h.bounded hlimit) hfuel
        refine ⟨{ s with heap := h₁, live := s.live.eraseIdx i }, ?_, h.room, h.grown,
          hregions ▸ h.fresh, h.bounded, fun c hc => h.usable c (List.mem_of_mem_eraseIdx hc),
          .inr ⟨fs', hgood'⟩⟩
        rw [Process.step, hi]
        dsimp only
        rw [hfree]
        rfl
  | store i a x =>
    refine ⟨0, fun fuel _ => .inr ?_⟩
    rw [Process.step]
    cases hi : s.live[i]? with
    | none => exact ⟨s, rfl, h⟩
    | some b =>
      dsimp only
      split_ifs with hin
      · have hmem : b ∈ s.live := List.mem_of_getElem? hi
        refine ⟨_, rfl, h.room, h.grown, h.fresh, h.bounded, h.usable, ?_⟩
        rcases h.heap with ⟨-, -, hlive⟩ | ⟨fs, hgood⟩
        · simp [hlive] at hmem
        · exact .inr ⟨fs, hgood.store (List.mem_map_of_mem hmem) hin.1 hin.2 x⟩
      · exact ⟨s, rfl, h⟩
  | elsewhere k =>
    refine ⟨0, fun fuel _ => .inr ?_⟩
    rw [Process.step]
    split_ifs with heq
    · exact ⟨_, rfl, heq ▸ h.room, heq ▸ h.grown, h.fresh, heq ▸ h.bounded, h.usable, heq ▸ h.heap⟩
    · exact ⟨s, rfl, h⟩

/-- Whatever the fuel, a step that is taken leads to a state between calls. -/
theorem Inv.step_some (h : Inv sbrk base start limit s) (hpos : 0 < base)
    (hfresh : sbrk.Fresh limit) (hlimit : limit < 2 ^ 32) {e : Call K} (hsmall : e.Small)
    {fuel : ℕ} (hstep : s.step sbrk base fuel e = some t) : Inv sbrk base start limit t := by
  obtain ⟨F, hF⟩ := h.step hpos hfresh hlimit hsmall
  have hmore := step_mono (Nat.le_max_left fuel F) hstep
  rcases hF (max fuel F) (Nat.le_max_right fuel F) with ⟨-, hnone⟩ | ⟨u, hu, hinv⟩
  · simp [hnone] at hmore
  · rw [hu, Option.some.injEq] at hmore
    exact hmore ▸ hinv

theorem Inv.run (h : Inv sbrk base start limit s) (hpos : 0 < base) (hfresh : sbrk.Fresh limit)
    (hlimit : limit < 2 ^ 32) (hreturns : ∀ k n, sbrk.call k n ≠ none) {es : List (Call K)}
    (hsmall : ∀ e ∈ es, e.Small) :
    ∃ t F, (∀ fuel ≥ F, Run.exec (Process.step sbrk base fuel) s es = some t) ∧
      Inv sbrk base start limit t := by
  induction es generalizing s with
  | nil => exact ⟨s, 0, fun _ _ => rfl, h⟩
  | cons e es ih =>
    obtain ⟨he, hes⟩ := List.forall_mem_cons.mp hsmall
    obtain ⟨F₁, hF₁⟩ := h.step hpos hfresh hlimit he
    rcases hF₁ F₁ le_rfl with ⟨⟨n, hcall⟩, -⟩ | ⟨u, hu, hinv⟩
    · exact (hreturns s.k n hcall).elim
    · obtain ⟨t, F₂, hF₂, ht⟩ := ih hinv hes
      refine ⟨t, max F₁ F₂, fun fuel hfuel => ?_, ht⟩
      rw [Run.exec, step_mono (Nat.max_le.mp hfuel).1 hu]
      exact hF₂ fuel (Nat.max_le.mp hfuel).2

end runs

/-- The heap of a program: a free list through `base` and all free blocks, entered anywhere,
in ascending order but for one wrap, without neighbours that touch; the free blocks and those
of the program are apart from each other and are all that `sbrk` has returned, and each block
of the program has room for its request behind its header. -/
structure Partitioned {K : Type*} (base : ℕ) (s : Process K) (fs : List Extent) : Prop where
  ring : Leads s.heap.ptr base (addrs fs) base
  anywhere : ∀ p ∈ base :: addrs fs,
    ∃ l, Leads s.heap.ptr p l p ∧ (p :: l).Perm (base :: addrs fs)
  freep : s.heap.freep ∈ base :: addrs fs
  ascending : (base :: addrs fs).Pairwise (· < ·)
  separate : Ascending fs
  sizes : Measured s.heap (fs ++ s.live.map Live.block)
  tiles : Extent.Tiles (fs ++ s.live.map Live.block) s.heap.regions
  usable : ∀ b ∈ s.live, b.block.lo + 8 + b.nbytes ≤ b.block.hi

/-- For every behaviour of `sbrk` that returns fresh memory or fails, and every sequence of small
requests, of calls of `free` for live blocks and of stores in them: all loops end, after each call
the heap is partitioned, or not yet in use, and `malloc` returns null only if `sbrk` has failed. -/
theorem malloc_free_partition {K : Type*} (sbrk : Sbrk K) (base limit : ℕ) (h : Heap) (k : K)
    (hbase : 0 < base) (hroom : base + 8 ≤ sbrk.top k) (hbounded : sbrk.top k ≤ limit)
    (hlimit : limit < 2 ^ 32) (hfresh : sbrk.Fresh limit)
    (hreturns : ∀ k n, sbrk.call k n ≠ none) (hfreep : h.freep = 0) (hregions : h.regions = [])
    (es : List (Call K)) (hsmall : ∀ e ∈ es, e.Small) :
    ∃ t F, (∀ fuel ≥ F, Run.exec (Process.step sbrk base fuel) ⟨h, k, []⟩ es = some t) ∧
      ((t.heap.freep = 0 ∧ t.heap.regions = [] ∧ t.live = []) ∨ ∃ fs, Partitioned base t fs) ∧
      ∀ nbytes, Small nbytes → ∃ ap h₁ k₁ F₁,
        (∀ fuel ≥ F₁, t.heap.malloc sbrk base t.k fuel nbytes = some (ap, h₁, k₁)) ∧
        h₁.freep ≠ 0 ∧ (ap = 0 → ∃ n, sbrk.call t.k n = some (none, k₁)) := by
  have hinv : Inv sbrk base (sbrk.top k) limit ⟨h, k, []⟩ :=
    ⟨hroom, le_rfl, by simp [hregions], hbounded, by simp, .inl ⟨hfreep, hregions, rfl⟩⟩
  obtain ⟨t, F, hF, ht⟩ := hinv.run hbase hfresh hlimit hreturns hsmall
  refine ⟨t, F, hF, ht.heap.imp_right ?_, fun nbytes hn => ?_⟩
  · rintro ⟨fs, hgood⟩
    exact ⟨fs, hgood.ring, fun p hp => hgood.ring.rotate hp, hgood.freep, hgood.ascending,
      hgood.sorted, hgood.measured, hgood.tiles, ht.usable⟩
  · obtain ⟨F₁, hF₁⟩ := ht.malloc hbase hfresh hlimit hn.units.1
    rcases hF₁ F₁ le_rfl with ⟨hcall, -⟩ | ⟨h₁, k₁, fs, -, hcall, -, heq, hgood, -⟩ |
      ⟨ap, h₁, k₁, fs, c, heq, hret⟩
    · exact (hreturns t.k _ hcall).elim
    · exact ⟨0, h₁, k₁, F₁, fun fuel hfuel => malloc_mono hfuel heq, hgood.freep_ne hbase,
        fun _ => ⟨_, hcall⟩⟩
    · exact ⟨ap, h₁, k₁, F₁, fun fuel hfuel => malloc_mono hfuel heq, hret.good.freep_ne hbase,
        fun hzero => (hret.block.2 hzero).elim⟩

def smallSbrk : Sbrk ℕ where
  top := id
  call := fun k n => if k + n ≤ 2 ^ 20 then some (some k, k + n) else some (none, k)

theorem smallSbrk_fresh : smallSbrk.Fresh (2 ^ 20) where
  fails := by
    intro k n k' _ _ _ hcall
    by_cases hle : k + n ≤ 2 ^ 20
    · simp only [smallSbrk, if_pos hle, Option.some.injEq, Prod.mk.injEq, reduceCtorEq,
        false_and] at hcall
    · simp only [smallSbrk, if_neg hle, Option.some.injEq, Prod.mk.injEq, true_and] at hcall
      rw [hcall]
  grows := by
    intro k n p k' _ _ _ hcall
    by_cases hle : k + n ≤ 2 ^ 20
    · simp only [smallSbrk, if_pos hle, Option.some.injEq, Prod.mk.injEq] at hcall
      obtain ⟨rfl, rfl⟩ := hcall
      exact ⟨le_rfl, le_rfl, hle⟩
    · simp only [smallSbrk, if_neg hle, Option.some.injEq, Prod.mk.injEq, reduceCtorEq,
        false_and] at hcall

theorem malloc_free_partition_small :
    ∃ t F, (∀ fuel ≥ F, Run.exec (Process.step smallSbrk 4000 fuel)
        ⟨⟨fun _ => ⟨0, 0⟩, 0, []⟩, 8192, []⟩
        [.malloc 10, .malloc 50000, .store 1 40956 ⟨1, 2⟩, .free 1] = some t) ∧
      t.live.length = 1 ∧ ∃ fs, Partitioned 4000 t fs := by
  have hreturns : ∀ k n, smallSbrk.call k n ≠ none := by
    intro k n
    simp only [smallSbrk]
    split_ifs <;> simp
  obtain ⟨t, F, hF, hpart, -⟩ := malloc_free_partition smallSbrk 4000 (2 ^ 20)
    ⟨fun _ => ⟨0, 0⟩, 0, []⟩ 8192 (by decide) (by decide) (by decide) (by decide) smallSbrk_fresh
    hreturns rfl rfl [.malloc 10, .malloc 50000, .store 1 40956 ⟨1, 2⟩, .free 1]
    (by simp [Call.Small, Small])
  have heval : (Run.exec (Process.step smallSbrk 4000 10) ⟨⟨fun _ => ⟨0, 0⟩, 0, []⟩, 8192, []⟩
      [.malloc 10, .malloc 50000, .store 1 40956 ⟨1, 2⟩, .free 1]).map
        (fun t => (t.heap.freep == 0, t.live.length)) = some (false, 1) := by decide +kernel
  obtain ⟨u, hu, he⟩ := Option.map_eq_some_iff.mp heval
  obtain rfl : u = t := Option.some.inj
    ((exec_mono (Nat.le_max_left 10 F) hu).symm.trans (hF _ (Nat.le_max_right 10 F)))
  simp only [Prod.mk.injEq, beq_eq_false_iff_ne] at he
  exact ⟨u, F, hF, he.2, hpart.resolve_left fun hnew => he.1 hnew.1⟩

end Umalloc

end Xv6
