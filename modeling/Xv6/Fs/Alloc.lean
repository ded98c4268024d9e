import Xv6.Fs.Block
import Mathlib.Data.Nat.Find
import Mathlib.Data.Finset.Card
import Mathlib.Data.Finset.Range

/-! What `balloc` and `bfree` do to the bitmap and to the rest of the disk. -/
namespace Xv6

/-- The bitmap bit of block `b`. -/
def used (sb : Superblock) (d : Disk) (b : ℕ) : Bool := (d (BBLOCK b sb.ninodes)).bit (b % BPB)

def dataStart (sb : Superblock) : ℕ := BBLOCK sb.size sb.ninodes + 1

def logStart (sb : Superblock) : ℕ := sb.size - sb.nlog

theorem IBLOCK_eq (i : ℕ) : IBLOCK i = i / 8 + 2 := rfl

theorem BBLOCK_eq (b ninodes : ℕ) : BBLOCK b ninodes = b / 4096 + ninodes / 8 + 3 := rfl

theorem BBLOCK_lt_dataStart {sb : Superblock} {b : ℕ} (h : b ≤ sb.size) :
    BBLOCK b sb.ninodes < dataStart sb := by
  rw [dataStart, BBLOCK_eq, BBLOCK_eq]
  omega

theorem IBLOCK_lt_BBLOCK {sb : Superblock} {i : ℕ} (h : i < sb.ninodes) (b : ℕ) :
    IBLOCK i < BBLOCK b sb.ninodes := by
  rw [IBLOCK_eq, BBLOCK_eq]
  omega

theorem IBLOCK_lt_dataStart {sb : Superblock} {i : ℕ} (h : i < sb.ninodes) :
    IBLOCK i < dataStart sb := by
  have hlt := IBLOCK_lt_BBLOCK h sb.size
  unfold dataStart
  omega

theorem mod_BPB_lt (b : ℕ) : b % BPB < 8 * BSIZE := by
  have h : b % 4096 < 4096 := Nat.mod_lt b (by decide)
  exact h

/-- The disk after `balloc` has returned `b`. -/
def allocDisk (sb : Superblock) (d : Disk) (b : ℕ) : Disk :=
  Function.update (Function.update d (BBLOCK b sb.ninodes)
    ((d (BBLOCK b sb.ninodes)).setBit (b % BPB))) b Bytes.zero

/-- The disk after `bfree` of `b`. -/
def freeDisk (sb : Superblock) (d : Disk) (b : ℕ) : Disk :=
  Function.update d (BBLOCK b sb.ninodes) ((d (BBLOCK b sb.ninodes)).clearBit (b % BPB))

theorem used_of_update_bitmap (sb : Superblock) (d : Disk) {b : ℕ} {x : Block} {c : Bool}
    (hx : ∀ j, x.bit j = if j = b % BPB then c else (d (BBLOCK b sb.ninodes)).bit j) (b' : ℕ) :
    used sb (Function.update d (BBLOCK b sb.ninodes) x) b' =
      if b' = b then c else used sb d b' := by
  unfold used
  by_cases hblk : BBLOCK b' sb.ninodes = BBLOCK b sb.ninodes
  · rw [hblk, Function.update_self, hx]
    have hdiv : b' / BPB = b / BPB := by
      unfold BBLOCK at hblk
      omega
    have hiff : b' % BPB = b % BPB ↔ b' = b := by
      constructor
      · intro hmod
        rw [← Nat.div_add_mod b' BPB, ← Nat.div_add_mod b BPB, hdiv, hmod]
      · rintro rfl
        rfl
    simp only [hiff]
  · rw [Function.update_of_ne hblk, if_neg]
    rintro rfl
    exact hblk rfl

theorem used_freeDisk (sb : Superblock) (d : Disk) (b b' : ℕ) :
    used sb (freeDisk sb d b) b' = if b' = b then false else used sb d b' := by
  exact used_of_update_bitmap sb d (fun j => Bytes.bit_clearBit (mod_BPB_lt b) j) b'

theorem used_allocDisk {sb : Superblock} {d : Disk} {b b' : ℕ}
    (hb : b ≠ BBLOCK b' sb.ninodes) :
    used sb (allocDisk sb d b) b' = if b' = b then true else used sb d b' := by
  have hset := used_of_update_bitmap sb d (fun j => Bytes.bit_setBit (mod_BPB_lt b) j) b'
  rw [← hset]
  unfold used allocDisk
  rw [Function.update_of_ne hb.symm]

theorem findClear_eq_some {bp : Block} {size b fuel bi t : ℕ} (hlo : bi ≤ t) (ht : t < BPB)
    (hs : b + t < size) (hf : t - bi < fuel) (hset : ∀ j, bi ≤ j → j < t → bp.bit j = true)
    (hclear : bp.bit t = false) : findClear bp size b fuel bi = some t := by
  induction fuel generalizing bi with
  | zero => omega
  | succ fuel ih =>
    rw [findClear, if_pos ⟨by omega, by omega⟩]
    by_cases hbi : bi = t
    · rw [hbi, if_pos hclear]
    · rw [if_neg (by rw [hset bi le_rfl (by omega)]; decide)]
      exact ih (by omega) (by omega) fun j hj hjt => hset j (by omega) hjt

theorem findClear_eq_none {bp : Block} {size b fuel bi : ℕ}
    (hset : ∀ j, bi ≤ j → j < BPB → b + j < size → bp.bit j = true) :
    findClear bp size b fuel bi = none := by
  induction fuel generalizing bi with
  | zero => rfl
  | succ fuel ih =>
    rw [findClear]
    split_ifs with hlt hbit
    · rw [hset bi le_rfl hlt.1 hlt.2] at hbit
      simp at hbit
    · exact ih fun j hj => hset j (by omega)
    · rfl

theorem add_in_block (sb : Superblock) {b j : ℕ} (hb : b % BPB = 0) (hj : j < BPB) :
    BBLOCK (b + j) sb.ninodes = BBLOCK b sb.ninodes ∧ (b + j) % BPB = j := by
  have hb' : b % 4096 = 0 := hb
  have hj' : j < 4096 := hj
  have hmod : (b + j) % 4096 = j := by omega
  rw [BBLOCK_eq, BBLOCK_eq]
  exact ⟨by omega, hmod⟩

theorem used_add {sb : Superblock} {b j : ℕ} (d : Disk) (hb : b % BPB = 0) (hj : j < BPB) :
    used sb d (b + j) = (d (BBLOCK b sb.ninodes)).bit j := by
  have hin := add_in_block sb hb hj
  rw [used, hin.1, hin.2]

def Fs.alloc (s : Fs) (sb : Superblock) (b : ℕ) : Fs :=
  { s with
    disk := allocDisk sb s.disk b
    logged := insert b (insert (BBLOCK b sb.ninodes) s.logged) }

def Fs.free (s : Fs) (sb : Superblock) (b : ℕ) : Fs :=
  { s with
    disk := freeDisk sb s.disk b
    logged := insert (BBLOCK b sb.ninodes) s.logged }

theorem readsb_eq {s : Fs} {sb : Superblock} (h : getSb (s.disk 1) = sb) :
    readsb ROOTDEV s = .ok sb s := by
  show Outcome.ok (getSb (s.disk 1)) s = .ok sb s
  rw [h]

theorem bread_eq (s : Fs) (sector : ℕ) : bread ROOTDEV sector s = .ok (s.disk sector) s := rfl

theorem ballocFrom_found {s : Fs} {sb : Superblock} {fuel b k : ℕ} (hlt : b < sb.size)
    (hb : b % BPB = 0) (hk : k < BPB)
    (hfind : findClear (s.disk (BBLOCK b sb.ninodes)) sb.size b (BPB + 1) 0 = some k) :
    ballocFrom sb ROOTDEV (fuel + 1) b s = .ok (b + k) (s.alloc sb (b + k)) := by
  obtain ⟨hblk, hmod⟩ := add_in_block sb hb hk
  rw [ballocFrom, if_pos hlt]
  simp only [bind, bread_eq, hfind]
  rw [Fs.alloc, allocDisk, hblk, hmod]
  rfl

theorem ballocFrom_next {s : Fs} {sb : Superblock} {fuel b : ℕ} (hlt : b < sb.size)
    (hfind : findClear (s.disk (BBLOCK b sb.ninodes)) sb.size b (BPB + 1) 0 = none) :
    ballocFrom sb ROOTDEV (fuel + 1) b s = ballocFrom sb ROOTDEV fuel (b + BPB) s := by
  rw [ballocFrom, if_pos hlt]
  simp only [bind, bread_eq, hfind]

/-- The loop finds the first clear bit, in whichever bitmap block it lies. -/
theorem ballocFrom_eq {s : Fs} {sb : Superblock} {t : ℕ} (ht : t < sb.size)
    (hclear : used sb s.disk t = false) (hset : ∀ b < t, used sb s.disk b = true)
    {fuel b : ℕ} (hb : b % BPB = 0) (hle : b ≤ t) (hf : t - b < BPB * fuel) :
    ballocFrom sb ROOTDEV fuel b s = .ok t (s.alloc sb t) := by
  have hpos : 0 < BPB := by decide
  induction fuel generalizing b with
  | zero => omega
  | succ fuel ih =>
    by_cases hin : t < b + BPB
    · obtain ⟨k, rfl⟩ := Nat.exists_eq_add_of_le hle
      have hk : k < BPB := by omega
      refine ballocFrom_found (by omega) hb hk
        (findClear_eq_some (Nat.zero_le k) hk ht (by omega) ?_ ?_)
      · intro j _ hj
        rw [← used_add s.disk hb (by omega)]
        exact hset (b + j) (by omega)
      · rw [← used_add s.disk hb hk]
        exact hclear
    · rw [ballocFrom_next (by omega)]
      · refine ih ?_ (by omega) ?_
        · rw [Nat.add_mod_right, hb]
        · rw [Nat.mul_succ] at hf
          omega
      · refine findClear_eq_none fun j _ hj _ => ?_
        rw [← used_add s.disk hb hj]
        exact hset (b + j) (by omega)

theorem ballocFrom_full {s : Fs} {sb : Superblock} (hset : ∀ b < sb.size, used sb s.disk b = true)
    {fuel b : ℕ} (hb : b % BPB = 0) :
    ballocFrom sb ROOTDEV fuel b s = .stop (.panic "balloc: out of blocks") := by
  induction fuel generalizing b with
  | zero => rfl
  | succ fuel ih =>
    by_cases hlt : b < sb.size
    · rw [ballocFrom_next hlt]
      · exact ih (by rw [Nat.add_mod_right, hb])
      · refine findClear_eq_none fun j _ hj hlt' => ?_
        rw [← used_add s.disk hb hj]
        exact hset (b + j) hlt'
    · rw [ballocFrom, if_neg hlt]
      rfl

theorem balloc_eq {s : Fs} {sb : Superblock} (hsb : getSb (s.disk 1) = sb) {t : ℕ}
    (ht : t < sb.size) (hclear : used sb s.disk t = false)
    (hset : ∀ b < t, used sb s.disk b = true) : balloc ROOTDEV s = .ok t (s.alloc sb t) := by
  have hdiv := Nat.div_add_mod sb.size BPB
  have hmod := Nat.mod_lt sb.size (show 0 < BPB by decide)
  have hrun : ballocFrom sb ROOTDEV (sb.size / BPB + 2) 0 s = .ok t (s.alloc sb t) :=
    ballocFrom_eq ht hclear hset (by rfl) (by omega) (by rw [Nat.mul_add]; omega)
  simp only [balloc, bind, readsb_eq hsb, hrun]

theorem balloc_full {s : Fs} {sb : Superblock} (hsb : getSb (s.disk 1) = sb)
    (hset : ∀ b < sb.size, used sb s.disk b = true) :
    balloc ROOTDEV s = .stop (.panic "balloc: out of blocks") := by
  have hrun : ballocFrom sb ROOTDEV (sb.size / BPB + 2) 0 s =
      .stop (.panic "balloc: out of blocks") := ballocFrom_full hset (by rfl)
  simp only [balloc, bind, readsb_eq hsb, hrun]

/-- `balloc` either returns the first clear block or panics because there is none. -/
theorem balloc_cases {s : Fs} {sb : Superblock} (hsb : getSb (s.disk 1) = sb) :
    (∃ t, t < sb.size ∧ used sb s.disk t = false ∧ (∀ b < t, used sb s.disk b = true) ∧
        balloc ROOTDEV s = .ok t (s.alloc sb t)) ∨
      ((∀ b < sb.size, used sb s.disk b = true) ∧
        balloc ROOTDEV s = .stop (.panic "balloc: out of blocks")) := by
  by_cases h : ∃ t, t < sb.size ∧ used sb s.disk t = false
  · have hspec := Nat.find_spec h
    have hmin : ∀ b < Nat.find h, used sb s.disk b = true := by
      intro b hb
      have hnot := Nat.find_min h hb
      rw [not_and, Bool.not_eq_false] at hnot
      exact hnot (by omega)
    exact Or.inl ⟨_, hspec.1, hspec.2, hmin, balloc_eq hsb hspec.1 hspec.2 hmin⟩
  · have hset : ∀ b < sb.size, used sb s.disk b = true := by
      intro b hb
      by_contra hne
      exact h ⟨b, hb, by simpa using hne⟩
    exact Or.inr ⟨hset, balloc_full hsb hset⟩

theorem bfree_eq {s : Fs} {sb : Superblock} (hsb : getSb (s.disk 1) = sb) {b : ℕ}
    (hb : used sb s.disk b = true) : bfree ROOTDEV b s = .ok () (s.free sb b) := by
  have hbit : (s.disk (BBLOCK b sb.ninodes)).bit (b % BPB) = true := hb
  show (if (s.disk (BBLOCK b (getSb (s.disk 1)).ninodes)).bit (b % BPB) = false then
      (panic "freeing free block" : FsM Unit)
    else logWrite _ _) s = _
  rw [hsb, if_neg (by simp [hbit])]
  rfl

theorem bfree_free {s : Fs} {sb : Superblock} (hsb : getSb (s.disk 1) = sb) {b : ℕ}
    (hb : used sb s.disk b = false) :
    bfree ROOTDEV b s = .stop (.panic "freeing free block") := by
  have hbit : (s.disk (BBLOCK b sb.ninodes)).bit (b % BPB) = false := hb
  show (if (s.disk (BBLOCK b (getSb (s.disk 1)).ninodes)).bit (b % BPB) = false then
      (panic "freeing free block" : FsM Unit)
    else logWrite _ _) s = _
  rw [hsb, if_pos hbit]
  rfl

end Xv6
