import Mathlib.Logic.Function.Basic
import Mathlib.Data.Nat.Notation

/-! A bitmap that accounts for the owners of numbered units. Unit `0` is never owned: an owner
mapped to `0` has nothing. -/

/-- Distinct owners have distinct units, each in `[lo, hi)` and marked used; and every unit in
`[lo, mid)` that is marked used has an owner. -/
structure Accounts {ι : Type*} (lo mid hi : ℕ) (used : ℕ → Bool) (own : ι → ℕ) : Prop where
  pos : 0 < lo
  inj : ∀ x y, own x = own y → own x ≠ 0 → x = y
  range : ∀ x, own x ≠ 0 → lo ≤ own x ∧ own x < hi
  marked : ∀ x, own x ≠ 0 → used (own x) = true
  owned : ∀ b, lo ≤ b → b < mid → used b = true → ∃ x, own x = b

namespace Accounts

variable {ι : Type*} {lo mid hi : ℕ} {used used' : ℕ → Bool} {own : ι → ℕ}

theorem congr_used (h : Accounts lo mid hi used own) (hmid : mid ≤ hi)
    (hu : ∀ b < hi, used' b = used b) : Accounts lo mid hi used' own where
  pos := h.pos
  inj := h.inj
  range := h.range
  marked x hx := by rw [hu _ (h.range x hx).2, h.marked x hx]
  owned b hlo hb hused := by
    rw [hu b (by omega)] at hused
    exact h.owned b hlo hb hused

theorem ne_of_free (h : Accounts lo mid hi used own) {b : ℕ} (hb : used b = false) (h0 : b ≠ 0)
    (x : ι) : own x ≠ b := by
  intro hx
  have hm := h.marked x (by omega)
  rw [hx, hb] at hm
  exact Bool.noConfusion hm

variable [DecidableEq ι]

theorem give (h : Accounts lo mid hi used own) {x : ι} {b : ℕ} (hx : own x = 0)
    (hb : used b = false) (hlo : lo ≤ b) (hhi : b < hi) :
    Accounts lo mid hi (fun c => if c = b then true else used c) (Function.update own x b) := by
  have hpos := h.pos
  have hne := h.ne_of_free hb (by omega)
  constructor
  · exact hpos
  · intro y z hyz hy
    by_cases hyx : y = x <;> by_cases hzx : z = x
    · rw [hyx, hzx]
    · rw [hyx, Function.update_self, Function.update_of_ne hzx] at hyz
      exact absurd hyz.symm (hne z)
    · rw [hzx, Function.update_self, Function.update_of_ne hyx] at hyz
      exact absurd hyz (hne y)
    · rw [Function.update_of_ne hyx] at hyz hy
      rw [Function.update_of_ne hzx] at hyz
      exact h.inj y z hyz hy
  · intro y hy
    by_cases hyx : y = x
    · rw [hyx, Function.update_self]
      exact ⟨hlo, hhi⟩
    · rw [Function.update_of_ne hyx] at hy ⊢
      exact h.range y hy
  · intro y hy
    by_cases hyx : y = x
    · rw [hyx, Function.update_self, if_pos rfl]
    · rw [Function.update_of_ne hyx] at hy ⊢
      rw [if_neg (hne y)]
      exact h.marked y hy
  · intro c hc hmid hused
    by_cases hcb : c = b
    · exact ⟨x, by rw [Function.update_self, hcb]⟩
    · rw [if_neg hcb] at hused
      obtain ⟨y, hy⟩ := h.owned c hc hmid hused
      have hyx : y ≠ x := by
        rintro rfl
        omega
      exact ⟨y, by rw [Function.update_of_ne hyx, hy]⟩

end Accounts
