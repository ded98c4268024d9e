import Xv6.Lib.Bytes

/-! Records of fixed-width little-endian fields. -/
namespace Record

open Bytes

/-- The bytes of a record, given as the widths and values of its fields. -/
def put (fs : List (ℕ × ℕ)) : List UInt8 := fs.flatMap fun f => natBytes f.1 f.2

def fields : List ℕ → List UInt8 → List ℕ
  | [], _ => []
  | w :: ws, bs => bytesNat (bs.take w) :: fields ws (bs.drop w)

@[simp] theorem length_put (fs : List (ℕ × ℕ)) : (put fs).length = (fs.map Prod.fst).sum := by
  induction fs with
  | nil => rfl
  | cons f fs ih => simp_all [put]

theorem fields_put (fs : List (ℕ × ℕ)) :
    fields (fs.map Prod.fst) (put fs) = fs.map fun f => f.2 % 256 ^ f.1 := by
  induction fs with
  | nil => rfl
  | cons f fs ih =>
    have htake : (put (f :: fs)).take f.1 = natBytes f.1 f.2 := by
      simp [put]
    have hdrop : (put (f :: fs)).drop f.1 = put fs := by
      simp [put]
    simp only [List.map_cons, fields, htake, hdrop, ih, bytesNat_natBytes]

theorem fields_replicate_zero (ws : List ℕ) (n : ℕ) :
    fields ws (List.replicate n 0) = ws.map fun _ => 0 := by
  have hzero : ∀ k, bytesNat (List.replicate k 0) = 0 := by
    intro k
    induction k with
    | zero => rfl
    | succ k ih => simp [List.replicate_succ, bytesNat, ih]
  induction ws generalizing n with
  | nil => rfl
  | cons w ws ih => simp [fields, ih, hzero]

theorem fields_lt (ws : List ℕ) (bs : List UInt8) {i : ℕ} (hi : i < ws.length) :
    (fields ws bs).getD i 0 < 256 ^ ws.getD i 0 := by
  induction ws generalizing bs i with
  | nil => simp at hi
  | cons w ws ih =>
    cases i with
    | zero =>
      have hlt := bytesNat_lt (bs.take w)
      have hle : 256 ^ (bs.take w).length ≤ 256 ^ w :=
        Nat.pow_le_pow_right (by decide) (by simp)
      simp only [fields, List.getD_cons_zero]
      omega
    | succ i =>
      simp only [fields, List.getD_cons_succ]
      exact ih _ (by simpa using hi)

end Record
