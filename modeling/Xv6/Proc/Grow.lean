import Xv6.Proc.Pages
import Xv6.Vm.Shortage

/-! When `growproc` does all or nothing. -/
namespace Xv6
namespace Kern
open Prog Vm

/-- `growproc(n)` has returned 0: the process has grown by `n` bytes, and what it had below both
sizes is as before. -/
structure Grew (p d : ℕ) (n : ℤ) (s t : Kern) : Prop where
  size : ((t.procs p).sz : ℤ) = (s.procs p).sz + n
  low : 0 ≤ (s.procs p).sz + n
  high : (s.procs p).sz + n < KERNBASE
  pages : ∀ u < userPages, pteAt t.mem d u % 2 = 1 ↔ u < pagesOf (t.procs p).sz
  kept : ∀ u < pagesOf (s.procs p).sz, u < pagesOf (t.procs p).sz →
    pteAt t.mem d u = pteAt s.mem d u ∧
      t.mem.page (pteAt s.mem d u / PGSIZE) = s.mem.page (pteAt s.mem d u / PGSIZE)

/-- The size and the user mappings of the process are as before. -/
structure Unchanged (p d : ℕ) (s t : Kern) : Prop where
  size : (t.procs p).sz = (s.procs p).sz
  mappings : ∀ u < userPages, mapping t.mem d u = mapping s.mem d u

/-- `growproc(n)` has returned 0 (`ok`) or -1. -/
def GrowsOrNot (p d : ℕ) (n : ℤ) (s : Kern) (ok : Bool) (t : Kern) : Prop :=
  (ok = true → Grew p d n s t) ∧ (ok = false → Unchanged p d s t)

def growRequests (s : Kern) (d sz sz' : ℕ) : List Request :=
  requests s.mem d (pagesOf sz) (pagesOf sz' - pagesOf sz)

/-- The size does not shrink to 0 or below, and memory does not run out at the page table of the
last page. -/
def GrowsWell (s : Kern) (d sz : ℕ) (n : ℤ) : Prop :=
  (n < 0 → 0 < sz → 0 < sz + n) ∧
  (0 < n → sz + n < KERNBASE →
    (growRequests s d sz (sz + n).toNat)[s.mem.free.length]? = some .table →
    s.mem.free.length + 1 ≠ (growRequests s d sz (sz + n).toNat).length)

def resized (s : Kern) (p c : ℕ) (t : Mem) : Kern :=
  { s with mem := t }.setProc p { s.procs p with sz := c }

section grow

variable {k : Image} {s : Kern} {t : Mem} {p d sz : ℕ} {n : ℤ}

theorem sz_resized (s : Kern) (p c : ℕ) (t : Mem) : ((s.resized p c t).procs p).sz = c := by
  simp only [resized, setProc, Function.update_self]

theorem wp_growproc {Q : Bool → Kern → Prop} {E : String → Prop} (hd : (s.procs p).pgdir = some d)
    (hn : n ≠ 0) :
    wp (growproc k p n) s Q E ↔ wp (resize k d (s.procs p).sz n) s.mem
      (fun c t => if c = 0 then Q false { s with mem := t } else Q true (s.resized p c t)) E := by
  unfold growproc
  rw [wp_bind, wp_proc, hd]
  dsimp only
  rw [if_neg hn, wp_bind, wp_vm]
  refine iff_of_eq (congrArg (wp _ _ · E) (funext fun c => funext fun t => ?_))
  by_cases hc : c = 0
  · rw [if_pos hc, if_pos hc, wp_pure]
  · rw [if_neg hc, if_neg hc, wp_bind, wp_store, wp_pure, ← hd]
    rfl

/-- What `growproc` does to the memory: a larger size, a smaller one, or a request that is not one
of them. -/
theorem resize_grow (hsz : sz < KERNBASE) (hn : 0 < n) (hlim : n < 2 ^ 31) :
    resize k d sz n = allocuvm k d sz (sz + n).toNat := by
  rw [KERNBASE_eq] at hsz
  rw [resize, if_pos hn, Int.emod_eq_of_lt (by omega) (by omega)]

theorem resize_shrink (hsz : sz < KERNBASE) (hn : n < 0) (hpos : 0 ≤ sz + n) :
    resize k d sz n = deallocuvm k d sz (sz + n).toNat := by
  rw [KERNBASE_eq] at hsz
  rw [resize, if_neg (by omega), Int.emod_eq_of_lt (by omega) (by omega)]

theorem resize_wrapped {Q : ℕ → Mem → Prop} {E : String → Prop} (hn : -2 ^ 31 ≤ n)
    (hneg : sz + n < 0) : wp (resize k d sz n) t Q E ↔ Q sz t := by
  have hmod : ((sz : ℤ) + n) % 2 ^ 32 = sz + n + 2 ^ 32 := by
    rw [← Int.add_emod_right, Int.emod_eq_of_lt (by omega) (by omega)]
  rw [resize, if_neg (by omega), hmod, deallocuvm, if_pos (by omega), wp_pure]

/-- Where a process of which the pages are there may grow or shrink. -/
structure Sized (k : Image) (s : Kern) (p d : ℕ) : Prop where
  inv : Inv k s
  runs : s.Runs p
  dir : (s.procs p).pgdir = some d
  pages : ∀ u < userPages, pteAt s.mem d u % 2 = 1 ↔ u < pagesOf (s.procs p).sz

namespace Sized

theorem holder (h : Sized k s p d) : s.dir (.proc p) = some d := by
  change (s.procs p).dir = some d
  rw [Proc.dir_eq (Or.inl h.runs), h.dir]

theorem frame (h : Sized k s p d) {u : ℕ} (hu : u < pagesOf (s.procs p).sz) :
    u < userPages ∧ frameOf (pteAt s.mem d u) = some (pteAt s.mem d u / PGSIZE) := by
  have hmax := pagesOf_le_userPages (h.inv.size p).le
  have hodd := (h.pages u (by omega)).mpr hu
  exact ⟨by omega, by rw [frameOf, if_pos hodd]⟩

theorem grew_filled {sz m : ℕ} (h : Sized k s p d) (hn : (sz : ℤ) = (s.procs p).sz + n)
    (hlt : sz < KERNBASE) (hm : pagesOf (s.procs p).sz + m = pagesOf sz)
    (hfill : Filled k s.dir s.spot (.proc p) (pagesOf (s.procs p).sz) m s.mem t) :
    Grew p d n s (s.resized p sz t) := by
  have hU := userPages_eq
  refine ⟨?_, by omega, by omega, ?_, ?_⟩
  · rw [sz_resized]
    exact hn
  · intro u hu
    rw [sz_resized]
    change pteAt t d u % 2 = 1 ↔ _
    by_cases hin : pagesOf (s.procs p).sz ≤ u ∧ u < pagesOf sz
    · obtain ⟨f, -, hpte, -⟩ := hfill.fresh d u h.holder hin.1 (by omega)
      rw [hpte]
      exact iff_of_true entry_odd hin.2
    · rw [hfill.ptes (.proc p) d u h.holder (by omega) (by omega), h.pages u hu]
      omega
  · intro u hu _
    obtain ⟨hu', hf⟩ := h.frame hu
    refine ⟨hfill.ptes (.proc p) d u h.holder (by omega) (by omega), hfill.pages _ ?_ ?_⟩
    · exact h.inv.owns.excl.apart (.user (.proc p) u) _ (by rw [owned_user h.holder hu', hf])
    · exact h.inv.owns.not_spine_of_user h.holder hu' hf

theorem grew_freed {sz : ℕ} (h : Sized k s p d) (hn : (sz : ℤ) = (s.procs p).sz + n)
    (hle : sz ≤ (s.procs p).sz)
    (hfr : Vm.Freed k s.dir s.spot (.proc p) d
      (fun u => pagesOf sz ≤ u ∧ u < pagesOf (s.procs p).sz) s.mem t) :
    Grew p d n s (s.resized p sz t) := by
  have hU := userPages_eq
  have hsz := h.inv.size p
  have hmono := pagesOf_mono hle
  refine ⟨?_, by omega, by omega, ?_, ?_⟩
  · rw [sz_resized]
    exact hn
  · intro u hu
    rw [sz_resized]
    change pteAt t d u % 2 = 1 ↔ _
    by_cases hin : pagesOf sz ≤ u ∧ u < pagesOf (s.procs p).sz
    · have := hfr.gone u (by omega) hin
      omega
    · rw [hfr.others (.proc p) d u h.holder (by omega) fun hc => hin hc.2, h.pages u hu]
      omega
  · intro u hu hlt
    rw [sz_resized] at hlt
    obtain ⟨hu', hf⟩ := h.frame hu
    have hpte := hfr.others (.proc p) d u h.holder (by omega) fun hc => by have := hc.2.1; omega
    refine ⟨hpte, hfr.pages _ ?_ (h.inv.owns.not_spine_of_user h.holder hu' hf)⟩
    exact hfr.owns.excl.apart (.user (.proc p) u) _ (by rw [owned_user h.holder hu', hpte, hf])

theorem growsOrNot_iff {c m : ℕ} (h : Sized k s p d) (hn : 0 < n)
    (hlt : (s.procs p).sz + n < KERNBASE)
    (hm : pagesOf (s.procs p).sz + m = pagesOf ((s.procs p).sz + n).toNat)
    (hend : AllocEnd k s.dir s.spot (.proc p) d (s.procs p).sz ((s.procs p).sz + n).toNat m
      s.mem c t) :
    (if c = 0 then GrowsOrNot p d n s false { s with mem := t }
      else GrowsOrNot p d n s true (s.resized p c t)) ↔
      ((requests s.mem d (pagesOf (s.procs p).sz) m)[s.mem.free.length]? = some .table →
        s.mem.free.length + 1 ≠ (requests s.mem d (pagesOf (s.procs p).sz) m).length) := by
  have hU := userPages_eq
  have hmap : ∀ {t : Mem}, (∀ y e u, s.dir y = some e → u < 2 ^ 20 →
      mapping t e u = mapping s.mem e u) → GrowsOrNot p d n s false { s with mem := t } :=
    fun hmap => ⟨nofun, fun _ => ⟨rfl, fun u hu => hmap (.proc p) d u h.holder (by omega)⟩⟩
  cases hend with
  | full hrs hfill hacc =>
    rw [if_neg (by omega), hrs]
    refine iff_of_true ⟨fun _ => ?_, nofun⟩ nofun
    exact h.grew_filled (by omega) (by omega) hm hfill
  | hole hrs hlast hpos hmiss =>
    rw [if_neg (by omega)]
    refine iff_of_false (fun hg => ?_) fun hne => hne hrs hlast
    have hmax : pagesOf ((s.procs p).sz + n).toNat ≤ userPages := pagesOf_le_userPages (by omega)
    have hodd := ((hg.1 rfl).pages (pagesOf ((s.procs p).sz + n).toNat - 1) (by omega)).mpr (by
      rw [sz_resized]
      omega)
    change pteAt t d _ % 2 = 1 at hodd
    omega
  | short hrs hpos hsame hacc =>
    rw [if_pos rfl, hrs]
    exact iff_of_true (hmap hsame) nofun
  | lost hrs hlast hsame hg haway =>
    rw [if_pos rfl]
    exact iff_of_true (hmap hsame) fun _ => hlast

theorem resize_freed (h : Sized k s p d) (hn : n < 0) (hpos : 0 ≤ (s.procs p).sz + n) :
    wp (resize k d (s.procs p).sz n) s.mem
      (fun c t => c = ((s.procs p).sz + n).toNat ∧ Vm.Freed k s.dir s.spot (.proc p) d
        (fun u => pagesOf ((s.procs p).sz + n).toNat ≤ u ∧ u < pagesOf (s.procs p).sz) s.mem t)
      (fun _ => False) := by
  have hsz := h.inv.size p
  rw [resize_shrink hsz hn hpos]
  exact deallocuvm_freed (w := pagesOf (s.procs p).sz) h.inv.owns h.holder hsz.le (by omega)
    fun u _ h2 => h.pages u (by have := pagesOf_le_userPages hsz.le; omega)

/-- The size 0 counts as a failure, but the pages are gone. -/
theorem shrink_to_zero (h : Sized k s p d) (hn : n < 0) (hzero : (s.procs p).sz + n = 0) :
    ¬wp (growproc k p n) s (GrowsOrNot p d n s) (fun _ => False) := by
  have hU := userPages_eq
  rw [wp_growproc h.dir hn.ne]
  refine fun hg => wp_absurd hg (wp_post (h.resize_freed hn hzero.ge) ?_)
  rintro c t ⟨rfl, hfr⟩
  rw [if_pos (by omega)]
  intro hg
  have hpos : 0 < pagesOf (s.procs p).sz := lt_pagesOf.mpr (by omega)
  have hmap := (hg.2 rfl).mappings 0 (by omega)
  have hgone := hfr.gone 0 (by omega) ⟨by rw [hzero]; exact Nat.zero_le _, hpos⟩
  change mapping t d 0 = _ at hmap
  rw [mapping_even hgone, mapping, if_pos ((h.pages 0 (by omega)).mpr hpos)] at hmap
  cases hmap

end Sized

/-- `growproc` does all or nothing exactly when the size does not shrink to 0 or below, and memory
does not run out at the page table of the last page. -/
theorem growproc_all_or_nothing_iff (h : Sized k s p d) (hlow : -2 ^ 31 ≤ n) (hhigh : n < 2 ^ 31) :
    wp (growproc k p n) s (GrowsOrNot p d n s) (fun _ => False) ↔
      GrowsWell s d (s.procs p).sz n := by
  have hsz := h.inv.size p
  have hU := userPages_eq
  have hB := KERNBASE_eq
  rcases lt_trichotomy n 0 with hn | rfl | hn
  · rw [wp_growproc h.dir hn.ne]
    have hwell : GrowsWell s d (s.procs p).sz n ↔ (0 < (s.procs p).sz → 0 < (s.procs p).sz + n) :=
      ⟨fun hw => hw.1 hn, fun hw => ⟨fun _ => hw, fun hc => by omega⟩⟩
    rw [hwell]
    by_cases hneg : (s.procs p).sz + n < 0
    · rw [resize_wrapped hlow hneg]
      by_cases hz : (s.procs p).sz = 0
      · rw [if_pos hz]
        refine iff_of_true ⟨nofun, fun _ => ⟨rfl, fun _ _ => rfl⟩⟩ fun hc => by omega
      · rw [if_neg hz]
        refine iff_of_false (fun hg => ?_) fun hc => ?_
        · have := (hg.1 rfl).size
          rw [sz_resized] at this
          omega
        · have := hc (by omega)
          omega
    · by_cases hzero : (s.procs p).sz + n = 0
      · rw [← wp_growproc h.dir hn.ne]
        refine iff_of_false (h.shrink_to_zero hn hzero) fun hc => ?_
        have := hc (by omega)
        omega
      · refine iff_of_true (wp_post (h.resize_freed hn (by omega)) ?_) fun _ => by omega
        rintro c t ⟨rfl, hfr⟩
        rw [if_neg (by omega)]
        exact ⟨fun _ => h.grew_freed (by omega) (by omega) hfr, nofun⟩
  · refine iff_of_true ?_ ⟨fun hc => by omega, fun hc => by omega⟩
    unfold growproc
    rw [wp_bind, wp_proc, h.dir]
    dsimp only
    rw [if_pos rfl, wp_pure]
    exact ⟨fun _ => ⟨by omega, by omega, by omega, h.pages, fun _ _ _ => ⟨rfl, rfl⟩⟩, nofun⟩
  · rw [wp_growproc h.dir hn.ne', resize_grow hsz hn hhigh]
    by_cases hlt : (s.procs p).sz + n < KERNBASE
    · have hmono := pagesOf_mono (a := (s.procs p).sz) (b := ((s.procs p).sz + n).toNat) (by omega)
      have hmax : pagesOf ((s.procs p).sz + n).toNat ≤ userPages := pagesOf_le_userPages (by omega)
      have hm : pagesOf (s.procs p).sz + (pagesOf ((s.procs p).sz + n).toNat -
          pagesOf (s.procs p).sz) = pagesOf ((s.procs p).sz + n).toNat := by omega
      have hspec := allocuvm_ends h.inv.owns h.holder (by omega) (by omega) hm fun u h1 h2 => by
        have := (h.pages u (by omega)).not.mpr (by omega)
        omega
      have hwell : GrowsWell s d (s.procs p).sz n ↔ _ :=
        ⟨fun hw => hw.2 hn hlt, fun hw => ⟨fun hc => by omega, fun _ _ => hw⟩⟩
      rw [hwell]
      constructor
      · intro hg htable hlast
        refine wp_absurd hg (wp_post hspec fun c t hend => ?_)
        exact (h.growsOrNot_iff hn hlt hm hend).not.mpr fun hne => hne htable hlast
      · exact fun hne => wp_post hspec fun c t hend => (h.growsOrNot_iff hn hlt hm hend).mpr hne
    · refine iff_of_true ?_ ⟨fun hc => by omega, fun _ hc => absurd hc hlt⟩
      rw [allocuvm, if_pos (by omega), wp_pure, if_pos rfl]
      exact ⟨nofun, fun _ => ⟨rfl, fun _ _ => rfl⟩⟩

end grow

def onlyProc (t : Mem) (sz : ℕ) : Kern where
  mem := t
  reserve _ := none
  raw _ := none
  dirs _ := none
  procs := Function.update (fun _ => ⟨.unused, 0, none, none, none⟩) 0
    ⟨.runnable, sz, some 1024, none, none⟩
  initproc := none
  pipes _ := none

theorem procs_onlyProc (t : Mem) (sz : ℕ) :
    (onlyProc t sz).procs 0 = ⟨.runnable, sz, some 1024, none, none⟩ := by
  simp only [onlyProc, Function.update_self]

theorem procs_onlyProc_of_ne (t : Mem) (sz : ℕ) {q : ℕ} (hq : q ≠ 0) :
    (onlyProc t sz).procs q = ⟨.unused, 0, none, none, none⟩ := by
  simp only [onlyProc, Function.update_of_ne hq]

theorem dir_onlyProc {t : Mem} {sz : ℕ} (x : Holder) (d : ℕ) (h : (onlyProc t sz).dir x = some d) :
    x = .proc 0 ∧ d = 1024 := by
  cases x with
  | raw n => cases h
  | image => cases h
  | proc q =>
    change ((onlyProc t sz).procs q).dir = some d at h
    by_cases hq : q = 0
    · rw [hq, procs_onlyProc] at h
      exact ⟨by rw [hq], (Option.some.inj h).symm⟩
    · rw [procs_onlyProc_of_ne t sz hq] at h
      cases h

theorem dir_onlyProc_eq (t t' : Mem) (sz sz' : ℕ) :
    (onlyProc t sz).dir = (onlyProc t' sz').dir := by
  funext x
  cases x with
  | raw n => rfl
  | image => rfl
  | proc q =>
    change ((onlyProc t sz).procs q).dir = ((onlyProc t' sz').procs q).dir
    by_cases hq : q = 0
    · rw [hq, procs_onlyProc, procs_onlyProc]
      rfl
    · rw [procs_onlyProc_of_ne t sz hq, procs_onlyProc_of_ne t' sz' hq]

theorem spot_onlyProc (t : Mem) (sz : ℕ) (y : Spot) : (onlyProc t sz).spot y = none := by
  cases y with
  | kstack q =>
    change ((onlyProc t sz).procs q).kstack = none
    by_cases hq : q = 0
    · rw [hq, procs_onlyProc]
    · rw [procs_onlyProc_of_ne t sz hq]
  | reserve f => rfl
  | raw n => rfl
  | pipe i => rfl

theorem size_onlyProc {t : Mem} {sz : ℕ} (hsz : sz < KERNBASE) (q : ℕ) :
    ((onlyProc t sz).procs q).sz < KERNBASE := by
  by_cases hq : q = 0
  · rw [hq, procs_onlyProc]
    exact hsz
  · rw [procs_onlyProc_of_ne t sz hq]
    decide

theorem sized_blank {free : List ℕ} (hfree : (1024 :: free).Nodup)
    (hpool : ∀ f ∈ 1024 :: free, Spaces.sampleImage.Pool f) :
    Sized Spaces.sampleImage (onlyProc (blank free) 0) 0 1024 := by
  refine ⟨⟨owns_blank dir_onlyProc (spot_onlyProc _ _) hfree hpool, size_onlyProc (by decide)⟩,
    ?_, ?_,
    fun u _ => ?_⟩
  · rw [Runs, procs_onlyProc]
  · rw [procs_onlyProc]
  · change pteAt (blank free) 1024 u % 2 = 1 ↔ _
    rw [procs_onlyProc, pteAt_fill rfl, show pagesOf 0 = 0 from rfl]
    omega

/-- The first page, with enough memory. -/
theorem growproc_all_or_nothing_first :
    wp (growproc Spaces.sampleImage 0 1) (onlyProc (blank [1025, 1026]) 0)
      (GrowsOrNot 0 1024 1 (onlyProc (blank [1025, 1026]) 0)) (fun _ => False) := by
  refine (growproc_all_or_nothing_iff (sized_blank (by decide) (by decide)) (by decide)
    (by decide)).mpr ⟨fun hc => by omega, fun _ _ htable => ?_⟩
  rw [procs_onlyProc] at htable
  change (requests (blank [1025, 1026]) 1024 0 1)[2]? = _ at htable
  rw [requests_blank] at htable
  cases htable

theorem sized_onePage {t t₀ : Mem}
    (howns : Owns Spaces.sampleImage t (onlyProc t₀ 0).dir (onlyProc t₀ 0).spot)
    (hpages : ∀ u < userPages, pteAt t 1024 u % 2 = 1 ↔ u < 1) :
    Sized Spaces.sampleImage (onlyProc t 4096) 0 1024 := by
  refine ⟨⟨?_, size_onlyProc (by decide)⟩, ?_, ?_, ?_⟩
  · have hspot : (onlyProc t 4096).spot = (onlyProc t₀ 0).spot :=
      funext fun y => (spot_onlyProc _ _ y).trans (spot_onlyProc _ _ y).symm
    rw [dir_onlyProc_eq t t₀ 4096 0, hspot]
    exact howns
  · rw [Runs, procs_onlyProc]
  · rw [procs_onlyProc]
  · rw [procs_onlyProc]
    exact hpages

theorem sized_filled {free : List ℕ} {t : Mem} (hfree : (1024 :: free).Nodup)
    (hpool : ∀ f ∈ 1024 :: free, Spaces.sampleImage.Pool f)
    (hfill : Filled Spaces.sampleImage (onlyProc (blank free) 0).dir (onlyProc (blank free) 0).spot
      (.proc 0) 0 1 (blank free) t) : Sized Spaces.sampleImage (onlyProc t 4096) 0 1024 := by
  have hdir := (sized_blank hfree hpool).holder
  refine sized_onePage hfill.owns fun u hu => ?_
  by_cases hone : u < 1
  · obtain ⟨f, -, hpte, -⟩ := hfill.fresh 1024 u hdir (Nat.zero_le u) hone
    rw [hpte]
    exact iff_of_true entry_odd hone
  · rw [hfill.ptes (.proc 0) 1024 u hdir (by rw [userPages_eq] at hu; omega)
      fun hc => hone hc.2.2]
    rw [pteAt_fill rfl]
    omega

theorem allocuvm_first {free : List ℕ} (hfree : (1024 :: free).Nodup)
    (hpool : ∀ f ∈ 1024 :: free, Spaces.sampleImage.Pool f) (htwo : 2 ≤ free.length) :
    ∃ t, allocuvm Spaces.sampleImage 1024 0 4096 (blank free) = .ok 4096 t ∧
      Sized Spaces.sampleImage (onlyProc t 4096) 0 1024 := by
  have hstart := sized_blank hfree hpool
  have hends := allocuvm_ends (n := 1) hstart.inv.owns hstart.holder (Nat.zero_le 4096)
    (by decide) rfl fun u _ _ => by
      change pteAt (blank free) 1024 u % 2 = 0
      rw [pteAt_fill rfl]
  have hrs : (requests (onlyProc (blank free) 0).mem 1024 (pagesOf 0) 1)[free.length]? = none := by
    change (requests (blank free) 1024 0 1)[free.length]? = none
    rw [requests_blank]
    exact List.getElem?_eq_none htwo
  obtain ⟨c, t, heq, hend⟩ := wp_total hends
  cases hend with
  | full _ hfill _ => exact ⟨t, heq, sized_filled hfree hpool hfill⟩
  | hole hrs' => cases hrs.symm.trans hrs'
  | short hrs' => cases hrs.symm.trans hrs'
  | lost hrs' => cases hrs.symm.trans hrs'

/-- `growproc(-sz)` returns -1 and unmaps every page. -/
theorem growproc_frees_and_fails : ∃ t : Mem,
    Sized Spaces.sampleImage (onlyProc t 4096) 0 1024 ∧
      ¬wp (growproc Spaces.sampleImage 0 (-4096)) (onlyProc t 4096)
        (GrowsOrNot 0 1024 (-4096) (onlyProc t 4096)) (fun _ => False) := by
  obtain ⟨t, -, hsized⟩ := allocuvm_first (by decide : (1024 :: [1025, 1026]).Nodup) (by decide)
    (by decide)
  exact ⟨t, hsized, hsized.shrink_to_zero (by decide) (by rw [procs_onlyProc]; decide)⟩

end Kern
end Xv6
