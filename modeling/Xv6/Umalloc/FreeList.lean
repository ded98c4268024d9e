import Mathlib.Data.Nat.Basic
import Xv6.Lib.Linked
import Xv6.Umalloc.Model

/-! The shape of the free list, and what `free` does to it. -/
namespace Xv6

namespace Umalloc

variable {base top p bp : ℕ} {h : Heap} {fs fs' l₁ l₂ live : List Extent} {b c : Extent}

def addrs (l : List Extent) : List ℕ := l.map Extent.lo

def lastOf (base : ℕ) (l : List Extent) : ℕ :=
  (base :: addrs l).getLast (List.cons_ne_nil base (addrs l))

/-- In ascending order, and no block touches the next. -/
def Ascending (l : List Extent) : Prop := l.Pairwise fun b c => b.hi < c.lo

def Measured (h : Heap) (l : List Extent) : Prop := ∀ b ∈ l, b.lo + 8 * h.size b.lo = b.hi

/-- The free list consists of `base` and of the blocks of `fs`, and these and the live blocks
are all that `sbrk` has returned. -/
structure Good (base top : ℕ) (h : Heap) (fs live : List Extent) : Prop where
  ring : Leads h.ptr base (addrs fs) base
  empty : h.size base = 0
  freep : h.freep ∈ base :: addrs fs
  sorted : Ascending fs
  measured : Measured h (fs ++ live)
  above : ∀ b ∈ fs ++ live, base + 8 ≤ b.lo
  below : ∀ b ∈ fs ++ live, b.hi ≤ top
  tiles : Extent.Tiles (fs ++ live) h.regions

namespace Heap

@[simp] theorem ptr_setPtr (h : Heap) (p q : ℕ) :
    (h.setPtr p q).ptr = Function.update h.ptr p q := by
  funext x
  by_cases hx : x = p <;> simp [setPtr, ptr, hx]

@[simp] theorem size_setPtr (h : Heap) (p q : ℕ) : (h.setPtr p q).size = h.size := by
  funext x
  by_cases hx : x = p <;> simp [setPtr, size, hx]

@[simp] theorem ptr_setSize (h : Heap) (p n : ℕ) : (h.setSize p n).ptr = h.ptr := by
  funext x
  by_cases hx : x = p <;> simp [setSize, ptr, hx]

@[simp] theorem size_setSize (h : Heap) (p n : ℕ) :
    (h.setSize p n).size = Function.update h.size p n := by
  funext x
  by_cases hx : x = p <;> simp [setSize, size, hx]

@[simp] theorem regions_setPtr (h : Heap) (p q : ℕ) : (h.setPtr p q).regions = h.regions := rfl

@[simp] theorem regions_setSize (h : Heap) (p n : ℕ) : (h.setSize p n).regions = h.regions := rfl

theorem slot_eq {l : List ℕ} {x y q : ℕ} (hpath : Leads h.ptr x l y) (hq : q ∈ x :: l)
    (hstop : ∀ z ∈ x :: l, h.Stops bp z ↔ z = q) {fuel : ℕ} (hfuel : l.length < fuel) :
    h.slot bp fuel x = some q := by
  induction l generalizing x fuel with
  | nil =>
    obtain ⟨fuel, rfl⟩ : ∃ n, fuel = n + 1 := ⟨fuel - 1, by omega⟩
    obtain rfl := List.mem_singleton.mp hq
    rw [slot, if_pos ((hstop q hq).mpr rfl)]
  | cons c l ih =>
    obtain ⟨fuel, rfl⟩ : ∃ n, fuel = n + 1 := ⟨fuel - 1, by omega⟩
    rw [slot]
    by_cases hx : x = q
    · rw [if_pos ((hstop x List.mem_cons_self).mpr hx), hx]
    · rw [if_neg (mt (hstop x List.mem_cons_self).mp hx), hpath.1]
      have hq' : q ∈ c :: l := (List.mem_cons.mp hq).resolve_left (Ne.symm hx)
      exact ih hpath.2 hq' (fun z hz => hstop z (List.mem_cons_of_mem x hz)) (by simpa using hfuel)

end Heap

theorem mem_addrs {x : ℕ} {l : List Extent} : x ∈ addrs l ↔ ∃ b ∈ l, b.lo = x := by
  simp [addrs]

@[simp] theorem addrs_append (l₁ l₂ : List Extent) : addrs (l₁ ++ l₂) = addrs l₁ ++ addrs l₂ :=
  List.map_append

@[simp] theorem addrs_cons (b : Extent) (l : List Extent) : addrs (b :: l) = b.lo :: addrs l := rfl

@[simp] theorem addrs_nil : addrs [] = [] := rfl

@[simp] theorem lastOf_nil (base : ℕ) : lastOf base [] = base := rfl

@[simp] theorem lastOf_concat (base : ℕ) (l : List Extent) (b : Extent) :
    lastOf base (l ++ [b]) = b.lo := by
  simp [lastOf]

theorem plus_eq {p n : ℕ} (hlt : p + 8 * n < 2 ^ 32) : plus p n = p + 8 * n :=
  Nat.mod_eq_of_lt hlt

theorem Ascending.addrs {l : List Extent} (h : Ascending l) (hpos : ∀ b ∈ l, b.lo < b.hi) :
    (Umalloc.addrs l).Pairwise (· < ·) := by
  refine List.pairwise_map.mpr (h.imp_of_mem fun {b c} hb _ hlt => ?_)
  exact Nat.lt_trans (hpos b hb) hlt

theorem not_mem_addrs {x : ℕ} {l : List Extent} (hne : ∀ c ∈ l, c.lo ≠ x) : x ∉ addrs l := by
  rintro hx
  obtain ⟨c, hc, heq⟩ := mem_addrs.mp hx
  exact hne c hc heq

theorem lastOf_mem (base : ℕ) (l : List Extent) : lastOf base l ∈ base :: addrs l :=
  List.getLast_mem _

/-- The block `b` is about to be linked in between the blocks of `l₁` and those of `l₂`, to
which it already points. -/
structure Opened (base top : ℕ) (h : Heap) (l₁ : List Extent) (b : Extent)
    (l₂ live : List Extent) : Prop where
  left : Leads h.ptr base (addrs l₁) (h.ptr (lastOf base l₁))
  right : Leads h.ptr b.lo (addrs l₂) base
  empty : h.size base = 0
  low : Ascending l₁
  order : ∀ c ∈ l₁, c.hi ≤ b.lo
  high : Ascending (b :: l₂)
  measured : Measured h (b :: (l₁ ++ l₂ ++ live))
  above : ∀ c ∈ b :: (l₁ ++ l₂ ++ live), base + 8 ≤ c.lo
  below : ∀ c ∈ b :: (l₁ ++ l₂ ++ live), c.hi ≤ top
  tiles : Extent.Tiles (b :: (l₁ ++ l₂ ++ live)) h.regions

theorem Good.opened {h₁ : Heap} {b' : Extent} {l₂' : List Extent} {q n : ℕ}
    (h' : Good base top h (l₁ ++ l₂) (b :: live)) (hptr : h₁.ptr = Function.update h.ptr b.lo q)
    (hsize : h₁.size = Function.update h.size b.lo n) (hregions : h₁.regions = h.regions)
    (hlo : b'.lo = b.lo) (hhi : b.lo + 8 * n = b'.hi) (hle : b'.hi ≤ top)
    (hlow : ∀ c ∈ l₁, c.hi ≤ b.lo) (hright : Leads h₁.ptr b.lo (addrs l₂') base)
    (hhigh : Ascending (b' :: l₂')) (hsub : ∀ c ∈ l₂', c ∈ l₂)
    (htiles : Extent.Tiles (b' :: (l₁ ++ l₂' ++ live)) h.regions) :
    Opened base top h₁ l₁ b' l₂' live := by
  have hmem : ∀ c ∈ l₁ ++ l₂' ++ live, c ∈ l₁ ++ l₂ ++ b :: live := by
    intro c hc
    simp only [List.mem_append, List.mem_cons] at hc ⊢
    rcases hc with (hc | hc) | hc
    · exact .inl (.inl hc)
    · exact .inl (.inr (hsub c hc))
    · exact .inr (.inr hc)
  have hne : ∀ c ∈ l₁ ++ l₂' ++ live, c.lo ≠ b.lo := fun c hc => hlo ▸ htiles.lo_ne hc
  have hbase : base + 8 ≤ b.lo := h'.above b (by simp)
  have hleft : b.lo ∉ base :: addrs l₁ := by
    rw [List.mem_cons, not_or]
    exact ⟨by omega, not_mem_addrs fun c hc => hne c (by simp [hc])⟩
  have hlast : lastOf base l₁ ≠ b.lo := fun heq => hleft (heq ▸ lastOf_mem base l₁)
  have hpath := (Leads.cut (addrs_append l₁ l₂ ▸ h'.ring)).1
  refine ⟨?_, hlo ▸ hright, ?_, (List.pairwise_append.mp h'.sorted).1, hlo ▸ hlow, hhigh, ?_, ?_,
    ?_, hregions ▸ htiles⟩
  · rw [hptr, Function.update_of_ne hlast]
    exact hpath.update hleft q
  · rw [hsize, Function.update_of_ne (by omega)]
    exact h'.empty
  · refine List.forall_mem_cons.mpr ⟨?_, fun c hc => ?_⟩
    · rw [hsize, hlo, Function.update_self, hhi]
    · rw [hsize, Function.update_of_ne (hne c hc)]
      exact h'.measured c (hmem c hc)
  · exact List.forall_mem_cons.mpr ⟨hlo ▸ hbase, fun c hc => h'.above c (hmem c hc)⟩
  · exact List.forall_mem_cons.mpr ⟨hle, fun c hc => h'.below c (hmem c hc)⟩

/-- `free` first joins the block with its upper neighbour, or lets it point there. -/
theorem Good.joinUpper (h' : Good base top h (l₁ ++ l₂) (b :: live)) (htop : top < 2 ^ 32)
    (hlow : ∀ c ∈ l₁, c.hi ≤ b.lo) (hhigh : ∀ c ∈ l₂, b.hi ≤ c.lo) :
    ∃ b' l₂', Opened base top (h.joinUpper b.lo (lastOf base l₁)) l₁ b' l₂' live ∧
      b'.lo = b.lo ∧ b.hi ≤ b'.hi ∧ l₂'.length ≤ l₂.length := by
  have htiles : Extent.Tiles (b :: (l₁ ++ l₂ ++ live)) h.regions := h'.tiles.perm List.perm_middle
  have hb : b.lo + 8 * h.size b.lo = b.hi := h'.measured b (by simp)
  have hbase : base + 8 ≤ b.lo := h'.above b (by simp)
  have hbtop : b.hi ≤ top := h'.below b (by simp)
  have hne : b.lo ∉ addrs l₂ := not_mem_addrs fun c hc => htiles.lo_ne (by simp [hc])
  have hplus : plus b.lo (h.size b.lo) = b.hi := by rw [plus_eq (by omega), hb]
  have hpath : Leads h.ptr (lastOf base l₁) (addrs l₂) base :=
    (Leads.cut (addrs_append l₁ l₂ ▸ h'.ring)).2
  have hsorted : Ascending l₂ := (List.pairwise_append.mp h'.sorted).2.1
  by_cases hjoin : b.hi = h.ptr (lastOf base l₁)
  · cases l₂ with
    | nil =>
      have hq : h.ptr (lastOf base l₁) = base := hpath
      omega
    | cons c l =>
      have hq : h.ptr (lastOf base l₁) = c.lo := hpath.1
      have hc : c.lo + 8 * h.size c.lo = c.hi := h'.measured c (by simp)
      have hctop : c.hi ≤ top := h'.below c (by simp)
      have hperm : (b :: (l₁ ++ c :: l ++ live)).Perm (b :: c :: (l₁ ++ l ++ live)) := by
        simp [List.append_assoc, List.perm_middle]
      have heq : h.joinUpper b.lo (lastOf base l₁) =
          (h.setSize b.lo ((h.size b.lo + h.size c.lo) % 2 ^ 32)).setPtr b.lo (h.ptr c.lo) := by
        rw [Heap.joinUpper, hplus, if_pos hjoin, hq]
      have hsum : (h.size b.lo + h.size c.lo) % 2 ^ 32 = h.size b.lo + h.size c.lo :=
        Nat.mod_eq_of_lt (by omega)
      rw [heq, hsum]
      have hnext : b.hi = c.lo := hjoin.trans hq
      refine ⟨⟨b.lo, c.hi⟩, l, h'.opened (q := h.ptr c.lo)
        (n := h.size b.lo + h.size c.lo) ?_ ?_ rfl rfl ?_ hctop hlow ?_ ?_ ?_ ?_, rfl, ?_, by simp⟩
      · rw [Heap.ptr_setPtr, Heap.ptr_setSize]
      · rw [Heap.size_setPtr, Heap.size_setSize]
      · dsimp only
        omega
      · rw [Heap.ptr_setPtr, Heap.ptr_setSize]
        exact hpath.2.restart fun hmem => hne (List.mem_cons_of_mem _ hmem)
      · exact List.pairwise_cons.mpr (List.pairwise_cons.mp hsorted)
      · exact fun e he => List.mem_cons_of_mem c he
      · exact (htiles.perm hperm).join hnext
      · dsimp only
        omega
  · have heq : h.joinUpper b.lo (lastOf base l₁) = h.setPtr b.lo (h.ptr (lastOf base l₁)) := by
      rw [Heap.joinUpper, hplus, if_neg hjoin]
    rw [heq]
    refine ⟨b, l₂, h'.opened (Heap.ptr_setPtr _ _ _) (n := h.size b.lo) ?_ rfl rfl hb hbtop hlow ?_
      ?_ (fun _ hc => hc) htiles, rfl, le_rfl, le_rfl⟩
    · rw [Heap.size_setPtr, Function.update_eq_self]
    · rw [Heap.ptr_setPtr]
      exact hpath.restart hne
    · refine List.pairwise_cons.mpr ⟨fun c hc => ?_, hsorted⟩
      cases l₂ with
      | nil => cases hc
      | cons d l =>
        have hd : h.ptr (lastOf base l₁) = d.lo := hpath.1
        have hle := hhigh d List.mem_cons_self
        rcases List.mem_cons.mp hc with rfl | hc'
        · omega
        · have hlt := (List.pairwise_cons.mp hsorted).1 c hc'
          have hpos := h'.tiles.pos d (by simp)
          omega

namespace Opened

theorem cells_ne (h' : Opened base top h l₁ b l₂ live) :
    lastOf base l₁ ≠ b.lo ∧ (base :: addrs l₁).Nodup ∧ lastOf base l₁ ∉ b.lo :: addrs l₂ := by
  have hpos : ∀ c ∈ b :: (l₁ ++ l₂ ++ live), c.lo < c.hi := h'.tiles.pos
  have hlt : ∀ x ∈ base :: addrs l₁, x < b.lo := by
    intro x hx
    rcases List.mem_cons.mp hx with rfl | hx
    · have := h'.above b List.mem_cons_self
      omega
    · obtain ⟨c, hc, rfl⟩ := mem_addrs.mp hx
      exact Nat.lt_of_lt_of_le (hpos c (by simp [hc])) (h'.order c hc)
  have hlast := hlt _ (lastOf_mem base l₁)
  refine ⟨by omega, ?_, ?_⟩
  · refine List.nodup_cons.mpr ⟨not_mem_addrs fun c hc => ?_, ?_⟩
    · have := h'.above c (by simp [hc])
      omega
    · exact (h'.low.addrs fun c hc => hpos c (by simp [hc])).imp Nat.ne_of_lt
  · rw [List.mem_cons, not_or]
    refine ⟨by omega, not_mem_addrs fun c hc => ?_⟩
    have hbc := (List.pairwise_cons.mp h'.high).1 c hc
    have hb := hpos b List.mem_cons_self
    omega

theorem link (h' : Opened base top h l₁ b l₂ live) (hlow : ∀ c ∈ l₁, c.hi < b.lo) :
    Good base top { h.setPtr (lastOf base l₁) b.lo with freep := lastOf base l₁ }
      (l₁ ++ b :: l₂) live := by
  obtain ⟨-, hnodup, hlast⟩ := h'.cells_ne
  have hperm : (b :: (l₁ ++ l₂ ++ live)).Perm (l₁ ++ b :: l₂ ++ live) := by
    simpa [List.append_assoc] using List.perm_middle.symm
  have hptr : Heap.ptr { h.setPtr (lastOf base l₁) b.lo with freep := lastOf base l₁ } =
      Function.update h.ptr (lastOf base l₁) b.lo := Heap.ptr_setPtr _ _ _
  have hsize : Heap.size { h.setPtr (lastOf base l₁) b.lo with freep := lastOf base l₁ } = h.size :=
    Heap.size_setPtr _ _ _
  refine ⟨?_, ?_, ?_, ?_, ?_, ?_, ?_, h'.tiles.perm hperm⟩
  · rw [hptr, addrs_append, addrs_cons]
    exact Leads.append_iff.mpr ⟨h'.left.retarget hnodup b.lo, h'.right.update hlast b.lo⟩
  · rw [hsize]
    exact h'.empty
  · have hmem := lastOf_mem base l₁
    simp only [addrs_append, List.mem_cons, List.mem_append] at hmem ⊢
    exact hmem.imp id Or.inl
  · refine List.pairwise_append.mpr ⟨h'.low, h'.high, fun c hc d hd => ?_⟩
    have hcb := hlow c hc
    rcases List.mem_cons.mp hd with rfl | hd
    · exact hcb
    · have hbd := (List.pairwise_cons.mp h'.high).1 d hd
      have hb := h'.tiles.pos b List.mem_cons_self
      omega
  · intro c hc
    rw [hsize]
    exact h'.measured c (hperm.mem_iff.mpr hc)
  · exact fun c hc => h'.above c (hperm.mem_iff.mpr hc)
  · exact fun c hc => h'.below c (hperm.mem_iff.mpr hc)

theorem merge {l : List Extent} {a : Extent} (h' : Opened base top h (l ++ [a]) b l₂ live)
    (htop : top < 2 ^ 32) (hnext : a.hi = b.lo) :
    Good base top
      { (h.setSize a.lo ((h.size a.lo + h.size b.lo) % 2 ^ 32)).setPtr a.lo (h.ptr b.lo) with
        freep := a.lo } (l ++ ⟨a.lo, b.hi⟩ :: l₂) live := by
  obtain ⟨-, -, hlast⟩ := h'.cells_ne
  rw [lastOf_concat, List.mem_cons, not_or] at hlast
  have ha : a.lo + 8 * h.size a.lo = a.hi := h'.measured a (by simp)
  have hb : b.lo + 8 * h.size b.lo = b.hi := h'.measured b (by simp)
  have hbtop : b.hi ≤ top := h'.below b (by simp)
  have haabove : base + 8 ≤ a.lo := h'.above a (by simp)
  have hsum : (h.size a.lo + h.size b.lo) % 2 ^ 32 = h.size a.lo + h.size b.lo :=
    Nat.mod_eq_of_lt (by omega)
  rw [hsum]
  have hptr : Heap.ptr { (h.setSize a.lo (h.size a.lo + h.size b.lo)).setPtr a.lo (h.ptr b.lo) with
      freep := a.lo } = Function.update h.ptr a.lo (h.ptr b.lo) := by
    refine (Heap.ptr_setPtr _ _ _).trans ?_
    rw [Heap.ptr_setSize]
  have hsize : Heap.size
      { (h.setSize a.lo (h.size a.lo + h.size b.lo)).setPtr a.lo (h.ptr b.lo) with
      freep := a.lo } = Function.update h.size a.lo (h.size a.lo + h.size b.lo) :=
    (Heap.size_setPtr _ _ _).trans (Heap.size_setSize _ _ _)
  have hperm : (b :: (l ++ [a] ++ l₂ ++ live)).Perm (a :: b :: (l ++ l₂ ++ live)) := by
    refine (List.Perm.cons b ?_).trans (List.Perm.swap a b _)
    simp [List.append_assoc, List.perm_middle]
  have hjoined := (h'.tiles.perm hperm).join hnext
  have hback : (⟨a.lo, b.hi⟩ :: (l ++ l₂ ++ live)).Perm (l ++ ⟨a.lo, b.hi⟩ :: l₂ ++ live) := by
    simpa [List.append_assoc] using List.perm_middle.symm
  have hne : ∀ c ∈ l ++ l₂ ++ live, c.lo ≠ a.lo := fun c hc => hjoined.lo_ne hc
  have hmem : ∀ c ∈ l ++ l₂ ++ live, c ∈ b :: (l ++ [a] ++ l₂ ++ live) := by
    intro c hc
    exact hperm.mem_iff.mpr (List.mem_cons_of_mem a (List.mem_cons_of_mem b hc))
  obtain ⟨hlow, -, hla⟩ := List.pairwise_append.mp h'.low
  refine ⟨?_, ?_, ?_, ?_, ?_, ?_, ?_, hjoined.perm hback⟩
  · have hleft : Leads h.ptr base (addrs l) a.lo := by
      have hpath := h'.left
      rw [addrs_append] at hpath
      exact (Leads.append_iff.mp hpath).1
    have hla : a.lo ∉ base :: addrs l := by
      rw [List.mem_cons, not_or]
      exact ⟨by omega, not_mem_addrs fun c hc => hne c (by simp [hc])⟩
    rw [hptr, addrs_append, addrs_cons]
    exact Leads.append_iff.mpr ⟨hleft.update hla _, h'.right.restart hlast.2⟩
  · rw [hsize, Function.update_of_ne (by omega)]
    exact h'.empty
  · simp
  · obtain ⟨hbl, hl₂⟩ := List.pairwise_cons.mp h'.high
    refine List.pairwise_append.mpr ⟨hlow, List.pairwise_cons.mpr ⟨hbl, hl₂⟩, fun c hc d hd => ?_⟩
    have hca := hla c hc a (by simp)
    rcases List.mem_cons.mp hd with rfl | hd
    · exact hca
    · have hbd := hbl d hd
      omega
  · intro c hc
    rw [hsize]
    rcases List.mem_cons.mp (hback.mem_iff.mpr hc) with rfl | hc
    · dsimp only
      rw [Function.update_self]
      omega
    · rw [Function.update_of_ne (hne c hc)]
      exact h'.measured c (hmem c hc)
  · intro c hc
    rcases List.mem_cons.mp (hback.mem_iff.mpr hc) with rfl | hc
    · exact haabove
    · exact h'.above c (hmem c hc)
  · intro c hc
    rcases List.mem_cons.mp (hback.mem_iff.mpr hc) with rfl | hc
    · exact hbtop
    · exact h'.below c (hmem c hc)

end Opened

/-- `free` then joins the block with its lower neighbour, or links it in behind. -/
theorem Opened.joinLower (h' : Opened base top h l₁ b l₂ live) (htop : top < 2 ^ 32) :
    ∃ fs, Good base top
        { h.joinLower b.lo (lastOf base l₁) with freep := lastOf base l₁ } fs live ∧
      (∃ c ∈ fs, c.lo ≤ b.lo ∧ b.hi ≤ c.hi) ∧ fs.length ≤ l₁.length + l₂.length + 1 := by
  rcases List.eq_nil_or_concat l₁ with rfl | ⟨l, a, rfl⟩
  · have hbase := h'.above b List.mem_cons_self
    have hbtop := h'.below b List.mem_cons_self
    have hbpos := h'.tiles.pos b List.mem_cons_self
    have hno : plus base (h.size base) ≠ b.lo := by
      rw [h'.empty, plus_eq (by omega)]
      omega
    refine ⟨b :: l₂, ?_, ⟨b, by simp, le_rfl, le_rfl⟩, by simp⟩
    rw [Heap.joinLower, lastOf_nil, if_neg hno]
    exact h'.link (by simp)
  · rw [List.concat_eq_append] at h' ⊢
    have ha := h'.measured a (by simp)
    have hatop := h'.below a (by simp)
    have hplus : plus a.lo (h.size a.lo) = a.hi := by rw [plus_eq (by omega), ha]
    by_cases hnext : a.hi = b.lo
    · refine ⟨l ++ ⟨a.lo, b.hi⟩ :: l₂, ?_, ⟨⟨a.lo, b.hi⟩, by simp, ?_, le_rfl⟩, ?_⟩
      · rw [Heap.joinLower, lastOf_concat, hplus, if_pos hnext]
        exact h'.merge htop hnext
      · have := h'.tiles.pos a (by simp)
        dsimp only
        omega
      · simp
        omega
    · refine ⟨l ++ [a] ++ b :: l₂, ?_, ⟨b, by simp, le_rfl, le_rfl⟩, ?_⟩
      · rw [Heap.joinLower, if_neg (by rw [lastOf_concat, hplus]; exact hnext)]
        have hab := h'.order a (by simp)
        have hapos := h'.tiles.pos a (by simp)
        refine h'.link fun c hc => ?_
        rcases List.mem_append.mp hc with hc | hc
        · have hca := (List.pairwise_append.mp h'.low).2.2 c hc a (by simp)
          omega
        · obtain rfl := List.mem_singleton.mp hc
          omega
      · simp
        omega

theorem Ascending.split (h : Ascending fs) (hpos : ∀ c ∈ fs, c.lo < c.hi)
    (hap : ∀ c ∈ fs, b.Apart c) :
    ∃ l₁ l₂, fs = l₁ ++ l₂ ∧ (∀ c ∈ l₁, c.hi ≤ b.lo) ∧ ∀ c ∈ l₂, b.hi ≤ c.lo := by
  induction fs with
  | nil => exact ⟨[], [], rfl, by simp, by simp⟩
  | cons c l ih =>
    obtain ⟨hc, hl⟩ := List.pairwise_cons.mp h
    rcases hap c List.mem_cons_self with hle | hle
    · refine ⟨[], c :: l, rfl, by simp, List.forall_mem_cons.mpr ⟨hle, fun d hd => ?_⟩⟩
      have hcd := hc d hd
      have hcpos := hpos c List.mem_cons_self
      omega
    · obtain ⟨l₁, l₂, rfl, hlow, hhigh⟩ := ih hl (fun d hd => hpos d (by simp [hd]))
        (fun d hd => hap d (by simp [hd]))
      exact ⟨c :: l₁, l₂, rfl, List.forall_mem_cons.mpr ⟨hle, hlow⟩, hhigh⟩

/-- The loop of `free` stops only at the last cell below the block. -/
theorem Good.stops_iff (h' : Good base top h (l₁ ++ l₂) (b :: live))
    (hlow : ∀ c ∈ l₁, c.hi ≤ b.lo) (hhigh : ∀ c ∈ l₂, b.hi ≤ c.lo) {z : ℕ}
    (hz : z ∈ base :: addrs (l₁ ++ l₂)) : h.Stops b.lo z ↔ z = lastOf base l₁ := by
  have hpos : ∀ c ∈ l₁ ++ l₂ ++ b :: live, c.lo < c.hi := h'.tiles.pos
  have hbase : base + 8 ≤ b.lo := h'.above b (by simp)
  have hb := hpos b (by simp)
  obtain ⟨hpath₁, hpath₂⟩ := Leads.cut (addrs_append l₁ l₂ ▸ h'.ring)
  obtain ⟨hsorted₁, hsorted₂, -⟩ := List.pairwise_append.mp h'.sorted
  have hlt₁ : ∀ x ∈ base :: addrs l₁, x < b.lo ∧ base ≤ x := by
    intro x hx
    rcases List.mem_cons.mp hx with rfl | hx
    · omega
    · obtain ⟨c, hc, rfl⟩ := mem_addrs.mp hx
      have hcpos := hpos c (by simp [hc])
      have hcb := hlow c hc
      have hcbase := h'.above c (by simp [hc])
      omega
  have hlt₂ : ∀ x ∈ addrs l₂, b.lo < x := by
    intro x hx
    obtain ⟨c, hc, rfl⟩ := mem_addrs.mp hx
    have hcb := hhigh c hc
    omega
  have hlast := hlt₁ _ (lastOf_mem base l₁)
  have hstop : h.Stops b.lo (lastOf base l₁) := by
    cases l₂ with
    | nil =>
      have hq : h.ptr (lastOf base l₁) = base := hpath₂
      exact .inr ⟨by omega, .inl hlast.1⟩
    | cons d l =>
      have hq : h.ptr (lastOf base l₁) = d.lo := hpath₂.1
      exact .inl ⟨hlast.1, hq ▸ hlt₂ d.lo (by simp)⟩
  have hascending₁ : (base :: addrs l₁).Pairwise (· < ·) := by
    refine List.pairwise_cons.mpr ⟨fun x hx => ?_,
      Ascending.addrs hsorted₁ fun c hc => hpos c (by simp [hc])⟩
    obtain ⟨c, hc, rfl⟩ := mem_addrs.mp hx
    have hcbase := h'.above c (by simp [hc])
    omega
  have hascending₂ : (lastOf base l₁ :: addrs l₂).Pairwise (· < ·) := by
    refine List.pairwise_cons.mpr ⟨fun x hx => ?_,
      Ascending.addrs hsorted₂ fun c hc => hpos c (by simp [hc])⟩
    exact Nat.lt_trans hlast.1 (hlt₂ x hx)
  rw [addrs_append, ← List.cons_append, List.mem_append] at hz
  rcases hz with hz | hz
  · rcases hpath₁.cases_next hascending₁ hz with ⟨heq, -⟩ | ⟨hnext, hmem⟩
    · exact iff_of_true (heq ▸ hstop) heq
    · have hno : ¬h.Stops b.lo z := by
        have hnb := hlt₁ _ (List.mem_cons_of_mem base hmem)
        unfold Heap.Stops
        omega
      exact iff_of_false hno fun heq => hno (heq ▸ hstop)
  · have hzb := hlt₂ z hz
    refine iff_of_false ?_ (by omega)
    unfold Heap.Stops
    rcases hpath₂.cases_next hascending₂ (List.mem_cons_of_mem _ hz) with ⟨-, heq⟩ | ⟨hnext, -⟩
    · omega
    · omega

theorem Good.free (h' : Good base top h fs (b :: live)) (htop : top < 2 ^ 32) {fuel : ℕ}
    (hfuel : fs.length < fuel) :
    ∃ h₁ fs', h.free fuel (b.lo + 8) = some h₁ ∧ Good base top h₁ fs' live ∧
      (∃ c ∈ fs', c.lo ≤ b.lo ∧ b.hi ≤ c.hi) ∧ fs'.length ≤ fs.length + 1 ∧
      h₁.regions = h.regions := by
  have htiles : Extent.Tiles (b :: (fs ++ live)) h.regions := h'.tiles.perm List.perm_middle
  have hb := htiles.pos b List.mem_cons_self
  have hbtop : b.hi ≤ top := h'.below b (by simp)
  obtain ⟨l₁, l₂, rfl, hlow, hhigh⟩ := h'.sorted.split (fun c hc => h'.tiles.pos c (by simp [hc]))
    (fun c hc => (List.pairwise_cons.mp htiles.apart).1 c (by simp [hc]))
  have hbp : (b.lo + 8 + (2 ^ 32 - 8)) % 2 ^ 32 = b.lo := by omega
  obtain ⟨l, hring, hperm⟩ := h'.ring.rotate h'.freep
  have hlen : l.length < fuel := by
    have heq := hperm.length_eq
    simp [addrs] at heq hfuel
    omega
  have hslot : h.slot b.lo fuel h.freep = some (lastOf base l₁) := by
    refine Heap.slot_eq hring ?_ (fun z hz => ?_) hlen
    · have hmem := lastOf_mem base l₁
      rw [hperm.mem_iff, addrs_append, ← List.cons_append]
      exact List.mem_append_left _ hmem
    · exact h'.stops_iff hlow hhigh (hperm.mem_iff.mp hz)
  obtain ⟨b', l₂', hopen, hlo, hhi, hlen₂⟩ := h'.joinUpper htop hlow hhigh
  obtain ⟨fs', hgood, ⟨c, hc, hclo, hchi⟩, hlen'⟩ := hopen.joinLower htop
  rw [hlo] at hgood
  refine ⟨_, fs', ?_, hgood, ⟨c, hc, by omega, by omega⟩, ?_, ?_⟩
  · rw [Heap.free]
    dsimp only
    rw [hbp, hslot]
    rfl
  · rw [List.length_append]
    omega
  · simp only [Heap.joinLower, Heap.joinUpper]
    split_ifs <;> rfl

end Umalloc

end Xv6
