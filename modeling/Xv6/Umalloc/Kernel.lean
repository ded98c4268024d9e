import Xv6.Proc.Grow
import Xv6.Umalloc.Runs

/-! The allocator over `sys_sbrk` and `growproc`: what `malloc` returns is memory of the
process. -/
namespace Xv6
open Vm (Image)

namespace Umalloc

/-- `sys_sbrk` of the process `p`: the old size, or -1. -/
def sysSbrk (image : Image) (p : ℕ) : Sbrk Kern where
  top := fun s => (s.procs p).sz
  call := fun s n =>
    match Kern.growproc image p (signed n) s with
    | .ok true t => some (some (s.procs p).sz, t)
    | .ok false t => some (none, t)
    | .stop _ => none

section kernel

open Prog Kern Vm

variable {image : Image} {s t : Kern} {p d : ℕ} {n : ℤ}

theorem allocuvm_value {m : Mem} {oldsz newsz : ℕ} (hle : oldsz ≤ newsz) :
    wp (allocuvm image d oldsz newsz) m (fun c _ => c = 0 ∨ (c = newsz ∧ newsz < KERNBASE))
      (fun _ => True) := by
  unfold allocuvm
  by_cases hge : newsz ≥ KERNBASE
  · rw [if_pos hge, wp_pure]
    exact .inl rfl
  · rw [if_neg hge, if_neg (by omega)]
    refine wp_seq (wp_trivial _ _) fun ok u _ => ?_
    cases ok with
    | true =>
      rw [if_pos rfl, wp_pure]
      exact .inr ⟨rfl, by omega⟩
    | false =>
      rw [if_neg (by simp)]
      refine wp_seq (wp_trivial _ _) fun _ v _ => ?_
      rw [wp_pure]
      exact .inl rfl

theorem growproc_size (image : Image) (hn : 0 < n) (hlt : n < 2 ^ 31)
    (hsz : (s.procs p).sz ≤ KERNBASE) :
    wp (growproc image p n) s (fun ok t =>
      (ok = false → (t.procs p).sz = (s.procs p).sz) ∧
      (ok = true → ((t.procs p).sz : ℤ) = (s.procs p).sz + n ∧ (t.procs p).sz ≤ KERNBASE))
      (fun _ => True) := by
  have hK := KERNBASE_eq
  cases hd : (s.procs p).pgdir with
  | none =>
    unfold growproc
    rw [wp_bind, wp_proc, hd]
    exact (wp_stop _).mpr trivial
  | some d =>
    rw [wp_growproc hd hn.ne', resize, if_pos hn, Int.emod_eq_of_lt (by omega) (by omega)]
    refine wp_post (allocuvm_value (by omega)) fun c u hc => ?_
    by_cases hzero : c = 0
    · rw [if_pos hzero]
      exact ⟨fun _ => rfl, by simp⟩
    · rw [if_neg hzero]
      obtain ⟨rfl, hlim⟩ := hc.resolve_left hzero
      refine ⟨by simp, fun _ => ?_⟩
      rw [sz_resized]
      omega

theorem sysSbrk_call {n : ℕ} {r : Option ℕ} (h : (sysSbrk image p).call s n = some (r, t)) :
    ∃ ok, growproc image p (signed n) s = .ok ok t ∧
      r = if ok then some (s.procs p).sz else none := by
  simp only [sysSbrk] at h
  cases hgrow : growproc image p (signed n) s with
  | stop msg => simp [hgrow] at h
  | ok ok u =>
    cases ok with
    | true =>
      simp only [hgrow, Option.some.injEq, Prod.mk.injEq] at h
      exact ⟨true, by rw [h.2], h.1.symm⟩
    | false =>
      simp only [hgrow, Option.some.injEq, Prod.mk.injEq] at h
      exact ⟨false, by rw [h.2], h.1.symm⟩

theorem sysSbrk_fresh (image : Image) (p : ℕ) : (sysSbrk image p).Fresh KERNBASE where
  fails := by
    intro s n t hpos hlt hsz hcall
    have hsigned : signed n = n := if_pos hlt
    obtain ⟨ok, hgrow, hr⟩ := sysSbrk_call hcall
    rw [hsigned] at hgrow
    have hspec := (wp_of_eq hgrow).mp (growproc_size image (by omega) (by omega) hsz)
    cases ok with
    | true => simp at hr
    | false => exact hspec.1 rfl
  grows := by
    intro s n a t hpos hlt hsz hcall
    have hsigned : signed n = n := if_pos hlt
    obtain ⟨ok, hgrow, hr⟩ := sysSbrk_call hcall
    rw [hsigned] at hgrow
    have hspec := (wp_of_eq hgrow).mp (growproc_size image (by omega) (by omega) hsz)
    cases ok with
    | true =>
      obtain ⟨hsize, hlim⟩ := hspec.2 rfl
      obtain rfl := Option.some.inj hr
      change (s.procs p).sz ≤ _ ∧ _ ≤ (t.procs p).sz ∧ (t.procs p).sz ≤ KERNBASE
      omega
    | false => simp at hr

theorem Sized.growproc (h : Sized image s p d) (hlow : -2 ^ 31 ≤ n) (hhigh : n < 2 ^ 31)
    (hwell : GrowsWell s d (s.procs p).sz n) {ok : Bool}
    (heq : Kern.growproc image p n s = .ok ok t) : Sized image t p d := by
  have hends := (wp_of_eq heq).mp ((growproc_all_or_nothing_iff h hlow hhigh).mpr hwell)
  have hinv := (wp_of_eq heq).mp (growproc_spec h.inv h.runs n)
  have hkept : t.Runs p ∧ (t.procs p).pgdir = some d := by
    by_cases hn : n = 0
    · have hid : wp (Kern.growproc image p n) s (fun _ t => t = s) (fun _ => False) := by
        unfold Kern.growproc
        rw [wp_bind, wp_proc, h.dir]
        dsimp only
        rw [if_pos hn, wp_pure]
      rw [(wp_of_eq heq).mp hid]
      exact ⟨h.runs, h.dir⟩
    · refine wp_ok (fun _ t => t.Runs p ∧ (t.procs p).pgdir = some d) heq
        ((wp_growproc (E := fun _ => True) h.dir hn).mpr
          (wp_post (wp_trivial _ _) fun c u _ => ?_))
      split_ifs
      · exact ⟨h.runs, h.dir⟩
      · have hproc : ((s.resized p c u).procs p) = { s.procs p with sz := c } :=
          Function.update_self _ _ _
        rw [Runs, hproc]
        exact ⟨h.runs, h.dir⟩
  refine ⟨hinv, hkept.1, hkept.2, fun u hu => ?_⟩
  cases ok with
  | true => exact (hends.1 rfl).pages u hu
  | false =>
    have hsame := hends.2 rfl
    have hmap := hsame.mappings u hu
    rw [hsame.size, ← h.pages u hu]
    simp only [mapping] at hmap
    split_ifs at hmap <;> simp_all

end kernel

open Kern (Sized GrowsWell)
open Vm (pteAt)

/-- The request and its header are fewer than 2^31 bytes, and if the heap has to grow for it and the
kernel runs out of memory, it does so at a page. Other processes leave the memory of this one
alone. -/
def Meets (image : Image) (p d : ℕ) (s : Process Kern) : Call Kern → Prop
  | .malloc nbytes => Small nbytes ∧ (s.heap.Lacks (Heap.unitsFor nbytes) →
      GrowsWell s.k d (s.k.procs p).sz (growth (Heap.unitsFor nbytes) * 8 : ℕ))
  | .elsewhere k => Sized image k p d
  | _ => True

section runs

variable {image : Image} {p d base start : ℕ} {s t : Process Kern}

theorem Meets.small {e : Call Kern} (h : Meets image p d s e) : e.Small := by
  cases e with
  | malloc nbytes => exact h.1
  | free i => trivial
  | store i a x => trivial
  | elsewhere k => trivial

theorem sized_call {k k₁ : Kern} {nbytes : ℕ} {r : Option ℕ} (hsized : Sized image k p d)
    (hsmall : Small nbytes)
    (hwell : GrowsWell k d (k.procs p).sz (growth (Heap.unitsFor nbytes) * 8 : ℕ))
    (hcall : (sysSbrk image p).call k (growth (Heap.unitsFor nbytes) * 8) = some (r, k₁)) :
    Sized image k₁ p d := by
  obtain ⟨ok, hgrow, -⟩ := sysSbrk_call hcall
  have hlt := hsmall.units.1
  rw [signed, if_pos hlt] at hgrow
  exact Sized.growproc hsized (by omega) (by omega) hwell hgrow

theorem sized_malloc (h : Inv (sysSbrk image p) base start KERNBASE s) (hpos : 0 < base)
    (hsized : Sized image s.k p d) {nbytes fuel ap : ℕ} {h₁ : Heap} {k₁ : Kern}
    (hmeets : Meets image p d s (.malloc nbytes))
    (hmalloc : s.heap.malloc (sysSbrk image p) base s.k fuel nbytes = some (ap, h₁, k₁)) :
    Sized image k₁ p d := by
  rcases h.malloc_some hpos (sysSbrk_fresh image p) (by decide) hmeets.1.units.1 hmalloc with
    ⟨-, hlacks, hcall⟩ | ⟨fs, c, hret⟩
  · exact sized_call hsized hmeets.1 (hmeets.2 hlacks) hcall
  · rcases hret.kernel with rfl | ⟨hlacks, hp, hcall⟩
    · exact hsized
    · exact sized_call hsized hmeets.1 (hmeets.2 hlacks) hcall

theorem sized_step (h : Inv (sysSbrk image p) base start KERNBASE s) (hpos : 0 < base)
    (hsized : Sized image s.k p d) {fuel : ℕ} {e : Call Kern} (hmeets : Meets image p d s e)
    (hstep : s.step (sysSbrk image p) base fuel e = some t) : Sized image t.k p d := by
  cases e with
  | malloc nbytes =>
    obtain ⟨⟨ap, h₁, k₁⟩, hmalloc, rfl⟩ := Option.map_eq_some_iff.mp hstep
    exact sized_malloc h hpos hsized hmeets hmalloc
  | free i =>
    rw [Process.step] at hstep
    split at hstep
    · exact Option.some.inj hstep ▸ hsized
    · obtain ⟨h₁, -, rfl⟩ := Option.map_eq_some_iff.mp hstep
      exact hsized
  | store i a x =>
    rw [Process.step] at hstep
    split at hstep
    · exact Option.some.inj hstep ▸ hsized
    · split_ifs at hstep
      · obtain rfl := Option.some.inj hstep
        exact hsized
      · exact Option.some.inj hstep ▸ hsized
  | elsewhere k =>
    rw [Process.step] at hstep
    split_ifs at hstep
    · obtain rfl := Option.some.inj hstep
      exact hmeets
    · exact Option.some.inj hstep ▸ hsized

end runs

/-- In every run whose requests with their headers are below 2^31 bytes, and in which memory
does not run out at the page table of a last page, what `malloc` returns lies in memory that
`sbrk` has added to the process since the start, and all its pages are there. -/
theorem malloc_inside_sbrk (image : Image) (p d base fuel : ℕ) (s : Kern) (h : Heap)
    (hbase : 0 < base) (hroom : base + 8 ≤ (s.procs p).sz) (hsized : Sized image s p d)
    (hfreep : h.freep = 0) (hregions : h.regions = []) (es : List (Call Kern)) (t : Process Kern)
    (hmeets : Run.Along (Process.step (sysSbrk image p) base fuel) (Meets image p d) ⟨h, s, []⟩ es)
    (hrun : Run.exec (Process.step (sysSbrk image p) base fuel) ⟨h, s, []⟩ es = some t)
    (nbytes : ℕ) (hlast : Meets image p d t (.malloc nbytes)) (ap : ℕ) (h₁ : Heap) (k₁ : Kern)
    (hmalloc : t.heap.malloc (sysSbrk image p) base t.k fuel nbytes = some (ap, h₁, k₁))
    (hap : ap ≠ 0) :
    (s.procs p).sz ≤ ap ∧ ap + nbytes ≤ (k₁.procs p).sz ∧ (k₁.procs p).sz < KERNBASE ∧
      ∀ u < Vm.userPages, pteAt k₁.mem d u % 2 = 1 ↔ u < Vm.pagesOf (k₁.procs p).sz := by
  have hinv : Inv (sysSbrk image p) base (s.procs p).sz KERNBASE ⟨h, s, []⟩ :=
    ⟨hroom, le_rfl, by simp [hregions], (hsized.inv.size p).le, by simp,
      .inl ⟨hfreep, hregions, rfl⟩⟩
  obtain ⟨ht, htsized⟩ := Run.exec_invariant
    (I := fun s₁ => Inv (sysSbrk image p) base (s.procs p).sz KERNBASE s₁ ∧ Sized image s₁.k p d)
    (fun _ _ _ hI hm hstep =>
      ⟨hI.1.step_some hbase (sysSbrk_fresh image p) (by decide) hm.small hstep,
      sized_step hI.1 hbase hI.2 hm hstep⟩) ⟨hinv, hsized⟩ hmeets hrun
  have hsized₁ := sized_malloc ht hbase htsized hlast hmalloc
  rcases ht.malloc_some hbase (sysSbrk_fresh image p) (by decide) hlast.1.units.1 hmalloc with
    ⟨hzero, -⟩ | ⟨fs, c, hret⟩
  · exact (hap hzero).elim
  · have hfresh := hret.fresh ht.grown ht.fresh
    have hpointer := hret.pointer
    have hunits := hret.units
    have hlen := hlast.1.units.2
    have hbelow : c.hi ≤ (k₁.procs p).sz := hret.good.below c (by simp)
    have hcpos := hret.good.tiles.pos c (by simp)
    obtain ⟨r, hr, hin⟩ := (hret.good.tiles.cover c.lo).mp ⟨c, by simp, le_rfl, hcpos⟩
    have hstart := hfresh r hr
    have hlo := hin.1
    exact ⟨by omega, by omega, hsized₁.inv.size p, hsized₁.pages⟩

def firstPage : Vm.Mem :=
  match Vm.allocuvm Vm.Spaces.sampleImage 1024 0 4096 (Vm.blank (List.range' 1025 12)) with
  | .ok _ t => t
  | .stop _ => Vm.blank []

theorem sized_firstPage : Sized Vm.Spaces.sampleImage (Kern.onlyProc firstPage 4096) 0 1024 := by
  obtain ⟨t, heq, hsized⟩ := Kern.allocuvm_first
    (by decide : (1024 :: List.range' 1025 12).Nodup) (by decide) (by decide)
  rw [firstPage, heq]
  exact hsized

def noHeap : Heap := ⟨fun _ => ⟨0, 0⟩, 0, []⟩

/-- The last request is served from a block that was freed before. -/
theorem malloc_inside_sbrk_again : ∃ t ap h₁ k₁,
    Run.exec (Process.step (sysSbrk Vm.Spaces.sampleImage 0) 4000 20)
        ⟨noHeap, Kern.onlyProc firstPage 4096, []⟩ [.malloc 100, .malloc 50, .free 1] = some t ∧
      t.heap.malloc (sysSbrk Vm.Spaces.sampleImage 0) 4000 t.k 20 80 = some (ap, h₁, k₁) ∧
      4096 ≤ ap ∧ ap + 80 ≤ (k₁.procs 0).sz := by
  -- after the first call, and before the last, the block behind `freep` is large enough
  have heval : (Process.step (sysSbrk Vm.Spaces.sampleImage 0) 4000 20
      ⟨noHeap, Kern.onlyProc firstPage 4096, []⟩ (.malloc 100)).bind (fun u =>
        (Run.exec (Process.step (sysSbrk Vm.Spaces.sampleImage 0) 4000 20) u
            [.malloc 50, .free 1]).bind fun t =>
          (t.heap.malloc (sysSbrk Vm.Spaces.sampleImage 0) 4000 t.k 20 80).map fun r =>
            (u.heap.freep, u.heap.size (u.heap.ptr^[1] u.heap.freep), t.heap.freep,
              t.heap.size (t.heap.ptr^[1] t.heap.freep), r.1)) =
      some (4000, 4082, 4096, 14, 36784) := by
    decide +kernel
  obtain ⟨u, hu, heval⟩ := Option.bind_eq_some_iff.mp heval
  obtain ⟨t, ht, heval⟩ := Option.bind_eq_some_iff.mp heval
  obtain ⟨⟨ap, h₁, k₁⟩, hmalloc, heq⟩ := Option.map_eq_some_iff.mp heval
  simp only [Prod.mk.injEq] at heq
  obtain ⟨hu0, husize, ht0, htsize, rfl⟩ := heq
  have hserved : ∀ (s : Process Kern) {nbytes x : ℕ}, Small nbytes → s.heap.freep ≠ 0 →
      s.heap.size (s.heap.ptr^[1] s.heap.freep) = x → Heap.unitsFor nbytes ≤ x →
      Meets Vm.Spaces.sampleImage 0 1024 s (.malloc nbytes) := by
    rintro s nbytes x hsmall h0 rfl hle
    exact ⟨hsmall, fun hlacks => absurd (hlacks.resolve_left h0 1) hle.not_gt⟩
  have hrequests : (Kern.growRequests (Kern.onlyProc firstPage 4096) 1024 4096
      36864)[firstPage.free.length]? = none := by decide +kernel
  have hfirst : Meets Vm.Spaces.sampleImage 0 1024 ⟨noHeap, Kern.onlyProc firstPage 4096, []⟩
      (.malloc 100) := by
    refine ⟨by unfold Small; omega, fun _ => ⟨by rintro ⟨⟩, fun _ _ htable => ?_⟩⟩
    cases hrequests.symm.trans htable
  have hrun : Run.exec (Process.step (sysSbrk Vm.Spaces.sampleImage 0) 4000 20)
      ⟨noHeap, Kern.onlyProc firstPage 4096, []⟩ [.malloc 100, .malloc 50, .free 1] = some t := by
    rw [Run.exec, hu]
    exact ht
  have hmeets : Run.Along (Process.step (sysSbrk Vm.Spaces.sampleImage 0) 4000 20)
      (Meets Vm.Spaces.sampleImage 0 1024) ⟨noHeap, Kern.onlyProc firstPage 4096, []⟩
      [.malloc 100, .malloc 50, .free 1] :=
    (Run.along_cons hu).mpr ⟨hfirst, hserved u (by unfold Small; omega) (by omega) husize
      (by decide), fun _ _ => ⟨trivial, fun _ _ => trivial⟩⟩
  obtain ⟨hlow, hhigh, -⟩ := malloc_inside_sbrk Vm.Spaces.sampleImage 0 1024 4000 20
    (Kern.onlyProc firstPage 4096) noHeap (by decide) (by decide) sized_firstPage rfl rfl _ t hmeets
    hrun 80 (hserved t (by unfold Small; omega) (by omega) htsize (by decide)) _ h₁ k₁ hmalloc
    (by decide)
  exact ⟨t, _, h₁, k₁, hrun, hmalloc, hlow, hhigh⟩

/-- `malloc(0xffffffff)` asks for one unit: the pointer it returns is the end of the memory. -/
theorem malloc_wraps :
    Sized Vm.Spaces.sampleImage (Kern.onlyProc firstPage 4096) 0 1024 ∧
    ∃ ap h₁ k₁, noHeap.malloc (sysSbrk Vm.Spaces.sampleImage 0) 4000
        (Kern.onlyProc firstPage 4096) 20 (2 ^ 32 - 1) = some (ap, h₁, k₁) ∧
      ap ≠ 0 ∧ (k₁.procs 0).sz ≤ ap ∧ 2 ^ 32 ≤ ap + (2 ^ 32 - 1) := by
  have heval : (noHeap.malloc (sysSbrk Vm.Spaces.sampleImage 0) 4000
      (Kern.onlyProc firstPage 4096) 20 (2 ^ 32 - 1)).map
        (fun r => (r.1, (r.2.2.procs 0).sz)) = some (36864, 36864) := by decide +kernel
  obtain ⟨⟨ap, h₁, k₁⟩, hmalloc, heq⟩ := Option.map_eq_some_iff.mp heval
  obtain ⟨hap, hsz⟩ := Prod.mk.inj heq
  dsimp only at hap hsz
  exact ⟨sized_firstPage, ap, h₁, k₁, hmalloc, by omega, by omega, by omega⟩

end Umalloc

end Xv6
