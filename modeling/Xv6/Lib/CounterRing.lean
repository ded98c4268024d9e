import Mathlib.Data.List.Range
import Mathlib.Data.Fin.Basic
import Mathlib.Data.UInt

/-! A ring of `N` cells that is addressed by counters: the counter `c` is at the cell `c % N`. -/
namespace CounterRing

/-! Differences of 32-bit counters. -/
section Counter

variable (a b c : UInt32)

theorem toNat_eq_add_sub : b.toNat = (a.toNat + (b - a).toNat) % 2 ^ 32 := by
  rw [UInt32.toNat_sub]
  have h1 := a.toNat_lt
  have h2 := b.toNat_lt
  omega

theorem sub_toNat_eq_zero : (b - a).toNat = 0 ↔ a = b := by
  rw [UInt32.toNat_sub, ← UInt32.toNat_inj]
  have h1 := a.toNat_lt
  have h2 := b.toNat_lt
  omega

theorem toNat_add_one : (a + 1).toNat = (a.toNat + 1) % 2 ^ 32 := UInt32.toNat_add ..

theorem add_one_sub_toNat (h : (b - a).toNat + 1 < 2 ^ 32) :
    (b + 1 - a).toNat = (b - a).toNat + 1 := by
  rw [UInt32.toNat_sub] at h
  rw [UInt32.toNat_sub, toNat_add_one, UInt32.toNat_sub]
  omega

theorem sub_add_one_toNat (h : 0 < (b - a).toNat) : (b - (a + 1)).toNat + 1 = (b - a).toNat := by
  rw [UInt32.toNat_sub] at h
  rw [UInt32.toNat_sub, toNat_add_one, UInt32.toNat_sub]
  have h1 := a.toNat_lt
  omega

theorem sub_one_sub_toNat (h : 0 < (b - a).toNat) : (b - 1 - a).toNat + 1 = (b - a).toNat := by
  have hone : (1 : UInt32).toNat = 1 := rfl
  rw [UInt32.toNat_sub] at h
  rw [UInt32.toNat_sub, UInt32.toNat_sub, UInt32.toNat_sub, hone]
  omega

theorem sub_toNat_add (h : (b - a).toNat + (c - b).toNat < 2 ^ 32) :
    (c - a).toNat = (b - a).toNat + (c - b).toNat := by
  rw [UInt32.toNat_sub, UInt32.toNat_sub] at *
  rw [UInt32.toNat_sub]
  have h2 := b.toNat_lt
  omega

end Counter

variable {α : Type*} {N : ℕ} [NeZero N]

def items (cells : Fin N → α) (r count : ℕ) : List α :=
  (List.range count).map fun j => cells (Fin.ofNat N (r + j))

@[simp] theorem length_items (cells : Fin N → α) (r count : ℕ) :
    (items cells r count).length = count := by
  simp [items]

theorem ofNat_mod_of_dvd {M : ℕ} (h : N ∣ M) (r : ℕ) : Fin.ofNat N (r % M) = Fin.ofNat N r := by
  apply Fin.ext
  exact Nat.mod_mod_of_dvd r h

theorem items_mod {M : ℕ} (h : N ∣ M) (cells : Fin N → α) (r count : ℕ) :
    items cells (r % M) count = items cells r count := by
  refine List.map_congr_left fun j _ => congrArg cells (Fin.ext ?_)
  change (r % M + j) % N = (r + j) % N
  rw [Nat.add_mod, Nat.mod_mod_of_dvd r h, ← Nat.add_mod]

theorem items_succ (cells : Fin N → α) (r count : ℕ) :
    items cells r (count + 1) = cells (Fin.ofNat N r) :: items cells (r + 1) count := by
  rw [items, List.range_succ_eq_map, List.map_cons, List.map_map, items]
  refine congrArg _ (List.map_congr_left fun j _ => congrArg cells (congrArg _ ?_))
  rw [Nat.succ_eq_add_one]
  omega

theorem ofNat_ne {r j count : ℕ} (hj : j < count) (hc : count < N) :
    Fin.ofNat N (r + j) ≠ Fin.ofNat N (r + count) := by
  intro h
  have hmod : (r + j) % N = (r + count) % N := congrArg Fin.val h
  have hdvd : N ∣ count - j := by
    have := Nat.dvd_of_mod_eq_zero (Nat.sub_mod_eq_zero_of_mod_eq hmod.symm)
    rwa [show r + count - (r + j) = count - j by omega] at this
  exact absurd (Nat.le_of_dvd (by omega) hdvd) (by omega)

theorem items_append (cells : Fin N → α) (r a b : ℕ) :
    items cells r (a + b) = items cells r a ++ items cells (r + a) b := by
  simp [items, List.range_add, Function.comp_def, Nat.add_assoc]

theorem items_update_of_le [DecidableEq (Fin N)] (cells : Fin N → α) {r count m : ℕ}
    (hc : count ≤ m)
    (hm : m < N) (x : α) :
    items (Function.update cells (Fin.ofNat N (r + m)) x) r count = items cells r count := by
  refine List.map_congr_left fun j hj => ?_
  exact Function.update_of_ne (ofNat_ne ((List.mem_range.mp hj).trans_le hc) hm) ..

theorem items_push [DecidableEq (Fin N)] (cells : Fin N → α) {r count : ℕ} (hc : count < N)
    (x : α) :
    items (Function.update cells (Fin.ofNat N (r + count)) x) r (count + 1) =
      items cells r count ++ [x] := by
  have hold := items_update_of_le cells (le_refl count) hc x (r := r)
  rw [items, List.range_succ, List.map_append, List.map_singleton, Function.update_self]
  exact congrArg (· ++ [x]) hold

end CounterRing
