import Xv6.Lib.Bytes

/-! Bitmaps in byte blocks: bit `i` is bit `i % 8` of byte `i / 8`. -/
namespace Bytes

variable {n : ℕ}

def mask (i : ℕ) : UInt8 := 1 <<< UInt8.ofNat (i % 8)

def bit (b : Bytes n) (i : ℕ) : Bool := b.get (i / 8) &&& mask i != 0

def setBit (b : Bytes n) (i : ℕ) : Bytes n := b.write (i / 8) [b.get (i / 8) ||| mask i]

def clearBit (b : Bytes n) (i : ℕ) : Bytes n := b.write (i / 8) [b.get (i / 8) &&& ~~~mask i]

theorem getLsbD_mask (i : ℕ) {l : ℕ} (hl : l < 8) :
    (mask i).toBitVec.getLsbD l = decide (l = i % 8) := by
  have hk : i % 8 < 8 := Nat.mod_lt _ (by decide)
  unfold mask
  generalize i % 8 = m at hk ⊢
  rw [Bool.eq_iff_iff]
  simp [Nat.mod_eq_of_lt hk]
  omega

theorem bit_eq_getLsbD (b : Bytes n) (i : ℕ) :
    b.bit i = (b.get (i / 8)).toBitVec.getLsbD (i % 8) := by
  have hk : i % 8 < 8 := Nat.mod_lt _ (by decide)
  have hzero : b.get (i / 8) &&& mask i = 0 ↔
      (b.get (i / 8)).toBitVec.getLsbD (i % 8) = false := by
    constructor
    · intro h
      have hbit := congrArg (fun y : UInt8 => y.toBitVec.getLsbD (i % 8)) h
      simpa [getLsbD_mask _ hk] using hbit
    · intro h
      apply UInt8.toBitVec_inj.mp
      apply BitVec.eq_of_getLsbD_eq
      intro l hl
      simp only [UInt8.toBitVec_and, BitVec.getLsbD_and, getLsbD_mask i hl]
      by_cases hlk : l = i % 8
      · simp [hlk, h]
      · simp [hlk]
  rw [bit, Bool.eq_iff_iff, bne_iff_ne, ne_eq, hzero, Bool.not_eq_false]

theorem bit_write {b : Bytes n} {c : Bool} {i j : ℕ} {x : UInt8} (hi : i < 8 * n)
    (h : ∀ l < 8, x.toBitVec.getLsbD l =
      if l = i % 8 then c else (b.get (i / 8)).toBitVec.getLsbD l) :
    (b.write (i / 8) [x]).bit j = if j = i then c else b.bit j := by
  rw [bit_eq_getLsbD, bit_eq_getLsbD]
  by_cases hj : j / 8 = i / 8
  · rw [get_write_of_mem (by omega) (by simp; omega) (by omega), hj, Nat.sub_self]
    simp only [List.getD_cons_zero]
    rw [h (j % 8) (Nat.mod_lt _ (by decide))]
    have hiff : j % 8 = i % 8 ↔ j = i := by omega
    simp only [hiff]
  · rw [get_write_of_notMem (by simp; omega), if_neg (by rintro rfl; exact hj rfl)]

theorem bit_setBit {b : Bytes n} {i : ℕ} (hi : i < 8 * n) (j : ℕ) :
    (b.setBit i).bit j = if j = i then true else b.bit j := by
  apply bit_write hi
  intro l hl
  simp only [UInt8.toBitVec_or, BitVec.getLsbD_or, getLsbD_mask i hl]
  by_cases hlk : l = i % 8
  · simp [hlk]
  · simp [hlk]

theorem bit_clearBit {b : Bytes n} {i : ℕ} (hi : i < 8 * n) (j : ℕ) :
    (b.clearBit i).bit j = if j = i then false else b.bit j := by
  apply bit_write hi
  intro l hl
  simp only [UInt8.toBitVec_and, UInt8.toBitVec_not, BitVec.getLsbD_and, BitVec.getLsbD_not,
    getLsbD_mask i hl, hl, decide_true, Bool.true_and]
  by_cases hlk : l = i % 8
  · simp [hlk]
  · simp [hlk]

@[simp] theorem bit_zero (i : ℕ) : (zero : Bytes n).bit i = false := by
  simp [bit]

end Bytes
