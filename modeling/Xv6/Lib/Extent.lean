import Mathlib.Data.List.Perm.Basic
import Mathlib.Order.Basic

/-! Extents of memory, and regions that are divided into them. -/

/-- The addresses from `lo` to before `hi`. -/
structure Extent where
  lo : ℕ
  hi : ℕ
  deriving DecidableEq, Repr

namespace Extent

def Has (e : Extent) (x : ℕ) : Prop := e.lo ≤ x ∧ x < e.hi

def Apart (e f : Extent) : Prop := e.hi ≤ f.lo ∨ f.hi ≤ e.lo

theorem Apart.symm {e f : Extent} (h : e.Apart f) : f.Apart e := Or.symm h

/-- The blocks are not empty and pairwise apart, and together they are the regions. -/
structure Tiles (blocks regions : List Extent) : Prop where
  pos : ∀ b ∈ blocks, b.lo < b.hi
  apart : blocks.Pairwise Apart
  cover : ∀ x, (∃ b ∈ blocks, b.Has x) ↔ ∃ r ∈ regions, r.Has x

namespace Tiles

variable {blocks blocks' regions : List Extent} {b r : Extent} {mid : ℕ}

theorem nil : Tiles [] [] := ⟨by simp, List.Pairwise.nil, by simp⟩

theorem perm (h : Tiles blocks regions) (hperm : blocks.Perm blocks') : Tiles blocks' regions where
  pos := fun b hb => h.pos b (hperm.mem_iff.mpr hb)
  apart := (hperm.pairwise_iff Apart.symm).mp h.apart
  cover := fun x => by
    rw [← h.cover x]
    simp only [hperm.mem_iff]

theorem split (h : Tiles (b :: blocks) regions) (hlo : b.lo < mid) (hhi : mid < b.hi) :
    Tiles (⟨b.lo, mid⟩ :: ⟨mid, b.hi⟩ :: blocks) regions := by
  obtain ⟨hb, hrest⟩ := List.pairwise_cons.mp h.apart
  refine ⟨?_, ?_, fun x => ?_⟩
  · intro c hc
    simp only [List.mem_cons] at hc
    rcases hc with rfl | rfl | hc
    · exact hlo
    · exact hhi
    · exact h.pos c (List.mem_cons_of_mem b hc)
  · refine List.pairwise_cons.mpr ⟨fun c hc => ?_, List.pairwise_cons.mpr ⟨fun c hc => ?_, hrest⟩⟩
    · rcases List.mem_cons.mp hc with rfl | hc
      · exact .inl (Nat.le_refl mid)
      · have happ := hb c hc
        simp only [Apart] at happ ⊢
        omega
    · have happ := hb c hc
      simp only [Apart] at happ ⊢
      omega
  · have hmem : (Has ⟨b.lo, mid⟩ x ∨ Has ⟨mid, b.hi⟩ x) ↔ b.Has x := by
      unfold Has
      dsimp only
      omega
    rw [← h.cover x]
    simp only [List.mem_cons, exists_eq_or_imp, ← hmem, or_assoc]

theorem join {c : Extent} (h : Tiles (b :: c :: blocks) regions) (hnext : b.hi = c.lo) :
    Tiles (⟨b.lo, c.hi⟩ :: blocks) regions := by
  obtain ⟨hb, hrest⟩ := List.pairwise_cons.mp h.apart
  obtain ⟨hc, hrest⟩ := List.pairwise_cons.mp hrest
  have hbpos := h.pos b (by simp)
  have hcpos := h.pos c (by simp)
  refine ⟨?_, List.pairwise_cons.mpr ⟨fun e he => ?_, hrest⟩, fun x => ?_⟩
  · intro e he
    rcases List.mem_cons.mp he with rfl | he
    · dsimp only
      omega
    · exact h.pos e (by simp [he])
  · have hbe := hb e (by simp [he])
    have hce := hc e he
    have hepos := h.pos e (by simp [he])
    simp only [Apart] at hbe hce ⊢
    omega
  · have hmem : Has ⟨b.lo, c.hi⟩ x ↔ b.Has x ∨ c.Has x := by
      unfold Has
      dsimp only
      omega
    rw [← h.cover x]
    simp only [List.mem_cons, exists_eq_or_imp, hmem, or_assoc]

theorem grow (h : Tiles blocks regions) (hr : r.lo < r.hi) (habove : ∀ b ∈ blocks, b.hi ≤ r.lo) :
    Tiles (r :: blocks) (r :: regions) where
  pos := List.forall_mem_cons.mpr ⟨hr, h.pos⟩
  apart := List.pairwise_cons.mpr ⟨fun b hb => .inr (habove b hb), h.apart⟩
  cover := fun x => by
    simp only [List.mem_cons, exists_eq_or_imp, h.cover x]

theorem lo_ne (h : Tiles (b :: blocks) regions) {c : Extent} (hc : c ∈ blocks) : c.lo ≠ b.lo := by
  have happ := (List.pairwise_cons.mp h.apart).1 c hc
  have hb := h.pos b List.mem_cons_self
  have hcpos := h.pos c (List.mem_cons_of_mem b hc)
  simp only [Apart] at happ
  omega

theorem apart_of_ne {c : Extent} (h : Tiles blocks regions) (hb : b ∈ blocks) (hc : c ∈ blocks)
    (hne : c ≠ b) : b.Apart c := by
  have hcons := h.perm (List.perm_cons_erase hb)
  exact (List.pairwise_cons.mp hcons.apart).1 c ((List.mem_erase_of_ne hne).mpr hc)

end Tiles

end Extent
