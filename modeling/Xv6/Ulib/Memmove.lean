import Mathlib.Data.UInt
import Mathlib.Logic.Function.Basic

/-! The two `memmove`s, of `string.c` and of `ulib.c`, on a flat memory. -/
namespace Xv6

abbrev Addr := BitVec 32

abbrev Memory := Addr → UInt8

/-- `while(n-- > 0) *d++ = *s++;` -/
def copyUp : ℕ → Addr → Addr → Memory → Memory
  | 0, _, _, m => m
  | n + 1, d, s, m => copyUp n (d + 1) (s + 1) (Function.update m d (m s))

/-- `while(n-- > 0) *--d = *--s;` -/
def copyDown : ℕ → Addr → Addr → Memory → Memory
  | 0, _, _, m => m
  | n + 1, d, s, m => copyDown n (d - 1) (s - 1) (Function.update m (d - 1) (m (s - 1)))

/-- `memmove` of `string.c`, for `n` unsigned. -/
def StringC.memmove (dst src : Addr) (n : BitVec 32) (m : Memory) : Memory :=
  if src < dst ∧ src + n > dst then copyDown n.toNat (dst + n) (src + n) m
  else copyUp n.toNat dst src m

/-- `memmove` of `ulib.c`, for `n` signed. -/
def Ulib.memmove (dst src : Addr) (n : BitVec 32) (m : Memory) : Memory :=
  copyUp n.toInt.toNat dst src m

/-- The destination holds what the source held, and nothing else has changed. -/
def Moved (dst src : Addr) (n : ℕ) (m m' : Memory) : Prop :=
  ∀ a, m' a = if (a - dst).toNat < n then m (src + (a - dst)) else m a

/-- The source range repeats itself after as many bytes as the destination lies behind it. -/
def Repeats (dst src : Addr) (n : ℕ) (m : Memory) : Prop :=
  ∀ i : Addr, dst - src ≤ i → i.toNat < n → m (src + i) = m (src + (i - (dst - src)))

section copy

variable {d s a : Addr} {n : ℕ} {m : Memory}

theorem copyUp_succ (n : ℕ) (d s : Addr) (m : Memory) :
    copyUp (n + 1) d s m = Function.update (copyUp n d s m) (d + BitVec.ofNat 32 n)
      (copyUp n d s m (s + BitVec.ofNat 32 n)) := by
  induction n generalizing d s m with
  | zero => simp [copyUp]
  | succ n ih =>
    have hadd : ∀ x : Addr, x + 1 + BitVec.ofNat 32 n = x + BitVec.ofNat 32 (n + 1) := by
      intro x
      bv_omega
    rw [copyUp, ih, hadd, hadd]
    rfl

theorem copyUp_frame (hn : n ≤ 2 ^ 32) (ha : n ≤ (a - d).toNat) : copyUp n d s m a = m a := by
  induction n with
  | zero => rfl
  | succ n ih =>
    have hne : a ≠ d + BitVec.ofNat 32 n := by
      rintro rfl
      bv_omega
    rw [copyUp_succ, Function.update_of_ne hne]
    exact ih (by omega) (by omega)

theorem copyUp_read (hn : n ≤ 2 ^ 32) {i : Addr} (hi : i.toNat < n) :
    copyUp n d s m (d + i) = copyUp i.toNat d s m (s + i) := by
  induction n with
  | zero => exact absurd hi (Nat.not_lt_zero _)
  | succ n ih =>
    rw [copyUp_succ]
    by_cases hin : i.toNat = n
    · rw [← hin, BitVec.ofNat_toNat, BitVec.setWidth_eq, Function.update_self]
    · have hne : d + i ≠ d + BitVec.ofNat 32 n := by
        intro heq
        have := BitVec.add_right_inj d |>.mp heq
        bv_omega
      rw [Function.update_of_ne hne]
      exact ih (by omega) (by omega)

theorem moved_iff (hn : n ≤ 2 ^ 32) :
    Moved d s n m (copyUp n d s m) ↔
      ∀ i : Addr, i.toNat < n → copyUp i.toNat d s m (s + i) = m (s + i) := by
  constructor
  · intro h i hi
    have hat := h (d + i)
    have hsub : d + i - d = i := by bv_omega
    rw [hsub, if_pos hi, copyUp_read hn hi] at hat
    exact hat
  · intro h a
    have hadd : d + (a - d) = a := by bv_omega
    split_ifs with ha
    · rw [← hadd, copyUp_read hn ha, h _ ha, hadd]
    · exact copyUp_frame hn (by omega)

/-- The forward loop moves the bytes unless it overwrites some before it has read them. -/
theorem copyUp_moved_iff (hd : d.toNat + n ≤ 2 ^ 32) (hs : s.toNat + n ≤ 2 ^ 32) :
    Moved d s n m (copyUp n d s m) ↔ (s < d → Repeats d s n m) := by
  have hn : n ≤ 2 ^ 32 := by omega
  have hfar : ∀ i : Addr, i.toNat < n → ¬ (s < d ∧ d - s ≤ i) →
      copyUp i.toNat d s m (s + i) = m (s + i) := by
    intro i hi hout
    refine copyUp_frame (by omega) ?_
    bv_omega
  have hnear : ∀ i : Addr, i.toNat < n → s < d → d - s ≤ i →
      copyUp i.toNat d s m (s + i) =
        copyUp (i - (d - s)).toNat d s m (s + (i - (d - s))) := by
    intro i hi hlt hle
    have hadd : s + i = d + (i - (d - s)) := by bv_omega
    rw [hadd]
    exact copyUp_read (by omega) (by bv_omega)
  rw [moved_iff hn]
  constructor
  · intro h hlt i hle hi
    have hback : (i - (d - s)).toNat < n := by bv_omega
    rw [← h i hi, hnear i hi hlt hle, h _ hback]
  · intro h i hi
    induction hk : i.toNat using Nat.strong_induction_on generalizing i with
    | _ k ih =>
      subst hk
      by_cases hout : s < d ∧ d - s ≤ i
      · have hless : (i - (d - s)).toNat < i.toNat := by bv_omega
        rw [hnear i hi hout.1 hout.2, ih _ hless _ (by omega) rfl, h hout.1 i hout.2 hi]
      · exact hfar i hi hout

theorem copyDown_succ (n : ℕ) (d s : Addr) (m : Memory) :
    copyDown (n + 1) d s m = Function.update (copyDown n d s m) (d - 1 - BitVec.ofNat 32 n)
      (copyDown n d s m (s - 1 - BitVec.ofNat 32 n)) := by
  induction n generalizing d s m with
  | zero => simp [copyDown]
  | succ n ih =>
    have hsub : ∀ x : Addr, x - 1 - 1 - BitVec.ofNat 32 n = x - 1 - BitVec.ofNat 32 (n + 1) := by
      intro x
      rw [BitVec.ofNat_add]
      grind
    rw [copyDown, ih, hsub, hsub]
    rfl

theorem copyDown_frame (hn : n ≤ 2 ^ 32) (ha : n ≤ (d - 1 - a).toNat) :
    copyDown n d s m a = m a := by
  induction n with
  | zero => rfl
  | succ n ih =>
    have hne : a ≠ d - 1 - BitVec.ofNat 32 n := by
      rintro rfl
      bv_omega
    rw [copyDown_succ, Function.update_of_ne hne]
    exact ih (by omega) (by omega)

theorem copyDown_read (hn : n ≤ 2 ^ 32) {i : Addr} (hi : i.toNat < n) :
    copyDown n d s m (d - 1 - i) = copyDown i.toNat d s m (s - 1 - i) := by
  induction n with
  | zero => exact absurd hi (Nat.not_lt_zero _)
  | succ n ih =>
    rw [copyDown_succ]
    by_cases hin : i.toNat = n
    · rw [← hin, BitVec.ofNat_toNat, BitVec.setWidth_eq, Function.update_self]
    · have hne : d - 1 - i ≠ d - 1 - BitVec.ofNat 32 n := by
        intro heq
        bv_omega
      rw [Function.update_of_ne hne]
      exact ih (by omega) (by omega)

theorem copyDown_moved {n : BitVec 32} (hlt : s < d) (hd : d.toNat + n.toNat ≤ 2 ^ 32) :
    Moved d s n.toNat m (copyDown n.toNat (d + n) (s + n) m) := by
  intro a
  split_ifs with ha
  · have hat : a = d + n - 1 - (d + n - 1 - a) := by bv_omega
    have hi : (d + n - 1 - a).toNat < n.toNat := by bv_omega
    have hsrc : s + n - 1 - (d + n - 1 - a) = s + (a - d) := by grind
    have hread := copyDown_read (d := d + n) (s := s + n) (m := m) (by omega) hi
    rw [← hat, hsrc] at hread
    have hgap : d + n - 1 - (s + (a - d)) = d - s + (d + n - 1 - a) := by grind
    have hlt' : (d - s).toNat + (d + n - 1 - a).toNat < 2 ^ 32 := by bv_omega
    rw [hread]
    refine copyDown_frame (by omega) ?_
    rw [hgap, BitVec.toNat_add, Nat.mod_eq_of_lt hlt']
    exact Nat.le_add_left ..
  · refine copyDown_frame (by omega) ?_
    bv_omega

end copy

theorem StringC.memmove_moved {dst src : Addr} {n : BitVec 32} (m : Memory)
    (hd : dst.toNat + n.toNat ≤ 2 ^ 32) (hs : src.toNat + n.toNat ≤ 2 ^ 32) :
    Moved dst src n.toNat m (StringC.memmove dst src n m) := by
  unfold StringC.memmove
  split_ifs with h
  · exact copyDown_moved h.1 hd
  · rw [copyUp_moved_iff hd hs]
    intro hlt i hle hi
    have hwrap : ¬ src + n > dst := fun hgt => h ⟨hlt, hgt⟩
    bv_omega

/-- Both `memmove`s move the bytes, unless the user's overwrites a source that lies before an
overlapping destination and does not repeat itself. -/
theorem memmoves_move_iff (m : Memory) (dst src : Addr) (n : BitVec 32) (hn : 0 ≤ n.toInt)
    (hd : dst.toNat + n.toNat ≤ 2 ^ 32) (hs : src.toNat + n.toNat ≤ 2 ^ 32) :
    (Moved dst src n.toNat m (StringC.memmove dst src n m) ∧
      Moved dst src n.toNat m (Ulib.memmove dst src n m)) ↔
    (src < dst → Repeats dst src n.toNat m) := by
  have hcount : n.toInt.toNat = n.toNat := by
    have hlt := BitVec.toInt_eq_toNat_cond n
    split_ifs at hlt <;> omega
  rw [and_iff_right (StringC.memmove_moved m hd hs), Ulib.memmove, hcount]
  exact copyUp_moved_iff hd hs

/-- Overlapping ranges: a move down, and a move up by the period of the source. -/
theorem memmoves_move_overlapping :
    Moved 1 3 4 (fun a => UInt8.ofNat a.toNat)
        (Ulib.memmove 1 3 4 fun a => UInt8.ofNat a.toNat) ∧
      Moved 2 0 5 (fun a => UInt8.ofNat (a.toNat % 2))
        (Ulib.memmove 2 0 5 fun a => UInt8.ofNat (a.toNat % 2)) := by
  refine ⟨((memmoves_move_iff _ 1 3 4 (by decide) (by decide) (by decide)).mpr ?_).2,
    ((memmoves_move_iff _ 2 0 5 (by decide) (by decide) (by decide)).mpr ?_).2⟩
  · exact fun hlt => absurd hlt (by decide)
  · intro _ i hle hi
    obtain rfl | rfl | rfl : i = 2 ∨ i = 3 ∨ i = 4 := by bv_omega
    all_goals rfl

/-- Two bytes moved one byte up: the second is lost. -/
theorem ulib_memmove_overlap : ¬ Moved 1 0 2 (fun a => UInt8.ofNat a.toNat)
    (Ulib.memmove 1 0 2 fun a => UInt8.ofNat a.toNat) := by
  intro h
  exact absurd (h 2) (by decide)

end Xv6
