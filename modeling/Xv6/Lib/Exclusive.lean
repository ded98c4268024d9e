import Mathlib.Logic.Function.Basic
import Mathlib.Data.List.Nodup

/-! Units that are each either on a free list, once, or held at one place. -/

/-- The free list has no unit twice, no unit is held at two places, and none that is held is
free. -/
structure Exclusive {ι α : Type*} (free : List α) (own : ι → Option α) : Prop where
  nodup : free.Nodup
  inj : ∀ x y a, own x = some a → own y = some a → x = y
  apart : ∀ x a, own x = some a → a ∉ free

namespace Exclusive

variable {ι κ α : Type*} {free : List α} {own own' : ι → Option α} {x y : ι} {a : α}

theorem mono (h : Exclusive free own) (hle : ∀ x a, own' x = some a → own x = some a) :
    Exclusive free own' where
  nodup := h.nodup
  inj x y a hx hy := h.inj x y a (hle x a hx) (hle y a hy)
  apart x a hx := h.apart x a (hle x a hx)

theorem rename {own' : κ → Option α} (h : Exclusive free own) (f : κ → ι)
    (hf : ∀ x y a, own' x = some a → own' y = some a → f x = f y → x = y)
    (hle : ∀ x a, own' x = some a → own (f x) = some a) : Exclusive free own' where
  nodup := h.nodup
  inj x y a hx hy := hf x y a hx hy (h.inj (f x) (f y) a (hle x a hx) (hle y a hy))
  apart x a hx := h.apart (f x) a (hle x a hx)

theorem tail (h : Exclusive (a :: free) own) : Exclusive free own where
  nodup := h.nodup.of_cons
  inj := h.inj
  apart x b hx hmem := h.apart x b hx (List.mem_cons_of_mem a hmem)

theorem head_ne (h : Exclusive (a :: free) own) (x : ι) : own x ≠ some a := by
  intro hx
  exact h.apart x a hx List.mem_cons_self

theorem gives {l : List ι} (h : Exclusive free own) (hl : l.Nodup)
    (hle : ∀ x a, own' x = some a → own x = some a ∧ x ∉ l) :
    Exclusive (l.filterMap own ++ free) own' where
  nodup := by
    refine List.Nodup.append (hl.filterMap h.inj) h.nodup ?_
    intro a ha
    obtain ⟨x, -, hx⟩ := List.mem_filterMap.mp ha
    exact h.apart x a hx
  inj := (h.mono fun x a hx => (hle x a hx).1).inj
  apart x a hx hmem := by
    obtain ⟨hxa, hxl⟩ := hle x a hx
    rcases List.mem_append.mp hmem with ha | ha
    · obtain ⟨y, hy, hya⟩ := List.mem_filterMap.mp ha
      exact hxl (h.inj x y a hxa hya ▸ hy)
    · exact h.apart x a hxa ha

variable [DecidableEq ι]

theorem take (h : Exclusive (a :: free) own) (x : ι) :
    Exclusive free (Function.update own x (some a)) where
  nodup := h.nodup.of_cons
  inj y z b hy hz := by
    by_cases hyx : y = x <;> by_cases hzx : z = x
    · rw [hyx, hzx]
    · rw [hyx, Function.update_self, Option.some.injEq] at hy
      rw [Function.update_of_ne hzx, ← hy] at hz
      exact absurd hz (h.head_ne z)
    · rw [hzx, Function.update_self, Option.some.injEq] at hz
      rw [Function.update_of_ne hyx, ← hz] at hy
      exact absurd hy (h.head_ne y)
    · rw [Function.update_of_ne hyx] at hy
      rw [Function.update_of_ne hzx] at hz
      exact h.inj y z b hy hz
  apart y b hy hmem := by
    by_cases hyx : y = x
    · rw [hyx, Function.update_self, Option.some.injEq] at hy
      exact (List.nodup_cons.mp h.nodup).1 (hy ▸ hmem)
    · rw [Function.update_of_ne hyx] at hy
      exact h.apart y b hy (List.mem_cons_of_mem a hmem)

theorem clear (h : Exclusive free own) (x : ι) :
    Exclusive free (Function.update own x none) := by
  refine h.mono ?_
  intro y b hy
  by_cases hyx : y = x
  · rw [hyx, Function.update_self] at hy
    simp at hy
  · rwa [Function.update_of_ne hyx] at hy

theorem give (h : Exclusive free own) (hx : own x = some a) :
    Exclusive (a :: free) (Function.update own x none) where
  nodup := List.nodup_cons.mpr ⟨h.apart x a hx, h.nodup⟩
  inj := (h.clear x).inj
  apart y b hy hmem := by
    rcases List.mem_cons.mp hmem with rfl | hmem
    · by_cases hyx : y = x
      · rw [hyx, Function.update_self] at hy
        simp at hy
      · rw [Function.update_of_ne hyx] at hy
        exact hyx (h.inj y x b hy hx)
    · exact (h.clear x).apart y b hy hmem

end Exclusive
