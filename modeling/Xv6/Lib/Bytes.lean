import Mathlib.Data.List.Basic
import Mathlib.Tactic.Ring
import Mathlib.Tactic.Linarith

/-! Fixed-size byte blocks with little-endian words. Reads outside a block give zero and
writes outside it are dropped, so all accessors are total. -/

def Bytes (n : ℕ) := Fin n → UInt8

namespace Bytes

variable {n : ℕ}

def get (b : Bytes n) (i : ℕ) : UInt8 := if h : i < n then b ⟨i, h⟩ else 0

def zero : Bytes n := fun _ => 0

/-- Overwrite the bytes from offset `off` on with the bytes of `src`. -/
def write (b : Bytes n) (off : ℕ) (src : List UInt8) : Bytes n :=
  fun i => if off ≤ i.val then (src[i.val - off]?).getD (b i) else b i

def slice (b : Bytes n) (off len : ℕ) : List UInt8 :=
  (List.range len).map fun i => b.get (off + i)

theorem ext_get {b c : Bytes n} (h : ∀ i < n, b.get i = c.get i) : b = c := by
  funext i
  have hi := h i.val i.isLt
  simpa [get, i.isLt] using hi

@[simp] theorem get_zero (i : ℕ) : (zero : Bytes n).get i = 0 := by
  unfold get zero
  split_ifs <;> rfl

theorem get_write_of_mem {b : Bytes n} {off i : ℕ} {src : List UInt8}
    (hlo : off ≤ i) (hhi : i < off + src.length) (hn : i < n) :
    (b.write off src).get i = src.getD (i - off) 0 := by
  have hs : i - off < src.length := by omega
  simp [get, write, hn, hlo, hs, List.getD_eq_getElem?_getD]

theorem get_write_of_notMem {b : Bytes n} {off i : ℕ} {src : List UInt8}
    (h : i < off ∨ off + src.length ≤ i) : (b.write off src).get i = b.get i := by
  unfold get write
  split_ifs with hn hlo
  · dsimp only at hlo ⊢
    have hs : src.length ≤ i - off := by omega
    simp [List.getElem?_eq_none hs]
  · rfl
  · rfl

@[simp] theorem write_nil (b : Bytes n) (off : ℕ) : b.write off [] = b := by
  apply ext_get
  intro i _
  exact get_write_of_notMem (by simp; omega)

theorem write_cons (b : Bytes n) (off : ℕ) (c : UInt8) (src : List UInt8) :
    (b.write off [c]).write (off + 1) src = b.write off (c :: src) := by
  funext i
  unfold write
  rcases Nat.lt_trichotomy i.val off with hlt | heq | hgt
  · rw [if_neg (by omega), if_neg (by omega), if_neg (by omega)]
  · rw [if_neg (by omega), if_pos heq.ge, if_pos heq.ge, heq, Nat.sub_self]
    rfl
  · obtain ⟨j, hj⟩ := Nat.exists_eq_add_of_lt hgt
    rw [if_pos (by omega), if_pos hgt.le, if_pos hgt.le, show i.val - off = j + 1 by omega,
      show i.val - (off + 1) = j by omega]
    rfl

@[simp] theorem length_slice (b : Bytes n) (off len : ℕ) : (b.slice off len).length = len := by
  simp [slice]

theorem getElem?_slice (b : Bytes n) (off len i : ℕ) :
    (b.slice off len)[i]? = if i < len then some (b.get (off + i)) else none := by
  unfold slice
  split_ifs with h
  · simp [h]
  · simp [Nat.le_of_not_lt h]

theorem slice_congr {b c : Bytes n} {off len : ℕ}
    (h : ∀ i < len, b.get (off + i) = c.get (off + i)) : b.slice off len = c.slice off len := by
  unfold slice
  apply List.map_congr_left
  intro i hi
  exact h i (List.mem_range.mp hi)

theorem slice_write_same {b : Bytes n} {off len : ℕ} {src : List UInt8}
    (hlen : src.length = len) (hn : off + len ≤ n) : (b.write off src).slice off len = src := by
  apply List.ext_getElem?
  intro i
  rw [getElem?_slice]
  split_ifs with hi
  · rw [get_write_of_mem (by omega) (by omega) (by omega)]
    have hs : i < src.length := by omega
    simp [List.getD_eq_getElem?_getD, hs]
  · rw [List.getElem?_eq_none (by omega)]

theorem slice_write_disjoint {b : Bytes n} {off off' len : ℕ} {src : List UInt8}
    (h : off' + len ≤ off ∨ off + src.length ≤ off') :
    (b.write off src).slice off' len = b.slice off' len := by
  apply slice_congr
  intro i hi
  exact get_write_of_notMem (by omega)

theorem slice_part (b : Bytes n) (off : ℕ) {i m len : ℕ} (h : i + m ≤ len) :
    ((b.slice off len).drop i).take m = b.slice (off + i) m := by
  apply List.ext_getElem?
  intro j
  rw [List.getElem?_take, List.getElem?_drop, getElem?_slice, getElem?_slice]
  split_ifs
  · rw [Nat.add_assoc]
  · omega
  · rfl

/-! Little-endian numbers. -/

def natBytes : ℕ → ℕ → List UInt8
  | 0, _ => []
  | w + 1, x => UInt8.ofNat x :: natBytes w (x / 256)

def bytesNat : List UInt8 → ℕ
  | [] => 0
  | c :: cs => c.toNat + 256 * bytesNat cs

@[simp] theorem length_natBytes (w x : ℕ) : (natBytes w x).length = w := by
  induction w generalizing x with
  | zero => rfl
  | succ w ih => simp [natBytes, ih]

theorem bytesNat_natBytes (w x : ℕ) : bytesNat (natBytes w x) = x % 256 ^ w := by
  induction w generalizing x with
  | zero => simp [natBytes, bytesNat, Nat.mod_one]
  | succ w ih =>
    have hb : (UInt8.ofNat x).toNat = x % 256 := by simp
    rw [natBytes, bytesNat, ih, hb, pow_succ, Nat.mul_comm (256 ^ w) 256, Nat.mod_mul]

theorem bytesNat_lt (cs : List UInt8) : bytesNat cs < 256 ^ cs.length := by
  induction cs with
  | nil => simp [bytesNat]
  | cons c cs ih =>
    have hc : c.toNat < 256 := c.toNat_lt
    simp only [bytesNat, List.length_cons, pow_succ]
    omega

def word (b : Bytes n) (off : ℕ) : ℕ := bytesNat (b.slice off 4)

def setWord (b : Bytes n) (off x : ℕ) : Bytes n := b.write off (natBytes 4 x)

theorem word_lt (b : Bytes n) (off : ℕ) : b.word off < 2 ^ 32 := by
  have h := bytesNat_lt (b.slice off 4)
  simpa [word] using h

theorem word_setWord_same {b : Bytes n} {off x : ℕ} (hn : off + 4 ≤ n) :
    (b.setWord off x).word off = x % 2 ^ 32 := by
  rw [word, setWord, slice_write_same (length_natBytes 4 x) hn, bytesNat_natBytes]
  norm_num

theorem word_setWord_disjoint {b : Bytes n} {off off' x : ℕ}
    (h : off' + 4 ≤ off ∨ off + 4 ≤ off') : (b.setWord off x).word off' = b.word off' := by
  rw [word, word, setWord, slice_write_disjoint]
  simpa using h

@[simp] theorem word_zero (off : ℕ) : (zero : Bytes n).word off = 0 := by
  simp [word, slice, bytesNat, List.range_succ]

def setWords (b : Bytes n) (off : ℕ) : List ℕ → Bytes n
  | [] => b
  | x :: xs => (b.setWord off x).setWords (off + 4) xs

theorem word_setWords_disjoint {off off' : ℕ} {xs : List ℕ} (b : Bytes n)
    (h : off' + 4 ≤ off ∨ off + 4 * xs.length ≤ off') :
    (b.setWords off xs).word off' = b.word off' := by
  induction xs generalizing b off with
  | nil => rfl
  | cons x xs ih =>
    simp only [List.length_cons] at h
    rw [setWords, ih _ (by omega), word_setWord_disjoint (by omega)]

theorem word_setWords {off : ℕ} {xs : List ℕ} (b : Bytes n) (hn : off + 4 * xs.length ≤ n)
    {i : ℕ} (hi : i < xs.length) :
    (b.setWords off xs).word (off + 4 * i) = xs[i] % 2 ^ 32 := by
  induction xs generalizing b off i with
  | nil => simp at hi
  | cons x xs ih =>
    simp only [List.length_cons] at hn hi
    cases i with
    | zero =>
      rw [setWords, word_setWords_disjoint _ (by omega)]
      exact word_setWord_same (by omega)
    | succ i =>
      have hoff : off + 4 * (i + 1) = off + 4 + 4 * i := by ring
      rw [setWords, hoff, ih _ (by omega) (by omega)]
      rfl

end Bytes
