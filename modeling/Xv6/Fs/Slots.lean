import Xv6.Fs.Alloc
import Xv6.Lib.Accounts

/-! Which disk blocks belong to which inode. -/
namespace Xv6

theorem NDIRECT_eq : NDIRECT = 12 := rfl

theorem NINDIRECT_eq : NINDIRECT = 128 := rfl

theorem MAXFILE_eq : MAXFILE = 140 := rfl

theorem BSIZE_eq : BSIZE = 512 := rfl

theorem IPB_eq : IPB = 8 := rfl

def dinodeAt (d : Disk) (i : ℕ) : Dinode := getDinode (d (IBLOCK i)) (i % IPB)

/-- The blocks of an inode by position: the direct blocks, the indirect block, and then the
entries of the indirect block. -/
def slot (d : Disk) (D : Dinode) (k : ℕ) : ℕ :=
  if k ≤ NDIRECT then D.addr k
  else if k ≤ MAXFILE ∧ D.addr NDIRECT ≠ 0 then
    (d (D.addr NDIRECT)).word (4 * (k - NDIRECT - 1))
  else 0

def blockSlot (bn : ℕ) : ℕ := if bn < NDIRECT then bn else bn + 1

/-- The number of positions that a file of `n` blocks fills. -/
def nslots (n : ℕ) : ℕ := if n ≤ NDIRECT then n else n + 1

def blockAt (d : Disk) (D : Dinode) (bn : ℕ) : ℕ := slot d D (blockSlot bn)

theorem blockSlot_lt_nslots {bn n : ℕ} : blockSlot bn < nslots n ↔ bn < n := by
  unfold blockSlot nslots
  split_ifs <;> omega

theorem blockSlot_ne (bn : ℕ) : blockSlot bn ≠ NDIRECT := by
  unfold blockSlot
  split_ifs <;> omega

theorem blockSlot_inj {a b : ℕ} (h : blockSlot a = blockSlot b) : a = b := by
  unfold blockSlot at h
  split_ifs at h <;> omega

theorem nslots_mono {a b : ℕ} (h : a ≤ b) : nslots a ≤ nslots b := by
  unfold nslots
  split_ifs <;> omega

section slot

variable {d d' : Disk} {D : Dinode} {k : ℕ}

theorem slot_of_le (hk : k ≤ NDIRECT) : slot d D k = D.addr k := by
  rw [slot, if_pos hk]

theorem slot_of_lt (hk : NDIRECT < k) (hk' : k ≤ MAXFILE) (h0 : D.addr NDIRECT ≠ 0) :
    slot d D k = (d (D.addr NDIRECT)).word (4 * (k - NDIRECT - 1)) := by
  rw [slot, if_neg (by omega), if_pos ⟨hk', h0⟩]

theorem slot_eq_zero (hk : NDIRECT < k) (h : MAXFILE < k ∨ D.addr NDIRECT = 0) :
    slot d D k = 0 := by
  rw [slot, if_neg (by omega), if_neg]
  rintro ⟨hk', h0⟩
  rcases h with h | h
  · omega
  · exact h0 h

theorem slot_congr (h : D.addr NDIRECT ≠ 0 → d' (D.addr NDIRECT) = d (D.addr NDIRECT)) (k : ℕ) :
    slot d' D k = slot d D k := by
  unfold slot
  split_ifs with hk h0
  · rfl
  · rw [h h0.2]
  · rfl

theorem slot_zero (k : ℕ) : slot d Dinode.zero k = 0 := by
  have haddr : ∀ k, Dinode.zero.addr k = 0 := by
    intro k
    simp [Dinode.addr, Dinode.zero]
  unfold slot
  simp [haddr]

end slot

/-- Who owns which block: inode and position, for the inodes below `ninodes`. -/
def owner (sb : Superblock) (d : Disk) (f : ℕ → Dinode) (x : ℕ × ℕ) : ℕ :=
  if x.1 < sb.ninodes then slot d (f x.1) x.2 else 0

/-- The super block is in place, the blocks before the data area are marked used, and the rest
of the bitmap accounts for the blocks owned. -/
structure Tally (sb : Superblock) (d : Disk) (own : ℕ × ℕ → ℕ) : Prop where
  superblock : getSb (d 1) = sb
  before : ∀ b < dataStart sb, b < sb.size → used sb d b = true
  accounts : Accounts (dataStart sb) (logStart sb) sb.size (used sb d) own

structure Fresh (sb : Superblock) (d : Disk) (b : ℕ) : Prop where
  data : dataStart sb ≤ b
  lt : b < sb.size
  free : used sb d b = false

def freeCount (sb : Superblock) (d : Disk) : ℕ :=
  ((Finset.range sb.size).filter fun b => used sb d b = false).card

/-- The disks agree on the super block and on the bitmap. -/
structure SameBits (sb : Superblock) (d d' : Disk) : Prop where
  superblock : d' 1 = d 1
  bits : ∀ b < sb.size, used sb d' b = used sb d b

section bits

variable {sb : Superblock} {d d' : Disk} {own : ℕ × ℕ → ℕ} {b c : ℕ}

theorem one_lt_BBLOCK (b n : ℕ) : 1 < BBLOCK b n := by
  rw [BBLOCK_eq]
  omega

theorem four_le_dataStart (sb : Superblock) : 4 ≤ dataStart sb := by
  rw [dataStart, BBLOCK_eq]
  omega

theorem logStart_le (sb : Superblock) : logStart sb ≤ sb.size := Nat.sub_le _ _

theorem sameBits_update_data (d : Disk) (x : Block) (hc : dataStart sb ≤ c) :
    SameBits sb d (Function.update d c x) := by
  constructor
  · have := four_le_dataStart sb
    rw [Function.update_of_ne (by omega)]
  · intro b hb
    have hblk : BBLOCK b sb.ninodes < dataStart sb := BBLOCK_lt_dataStart (le_of_lt hb)
    rw [used, used, Function.update_of_ne (by omega)]

theorem sameBits_update_inode (d : Disk) (x : Block) {i : ℕ} (hi : i < sb.ninodes) :
    SameBits sb d (Function.update d (IBLOCK i) x) := by
  constructor
  · rw [Function.update_of_ne]
    rw [IBLOCK_eq]
    omega
  · intro b _
    have := IBLOCK_lt_BBLOCK hi b
    rw [used, used, Function.update_of_ne (by omega)]

theorem Tally.congr (h : Tally sb d own) (hs : SameBits sb d d') : Tally sb d' own where
  superblock := by rw [hs.superblock, h.superblock]
  before b hb hlt := by rw [hs.bits b hlt, h.before b hb hlt]
  accounts := h.accounts.congr_used (logStart_le sb) hs.bits

theorem freeCount_congr (hs : SameBits sb d d') : freeCount sb d' = freeCount sb d := by
  unfold freeCount
  congr 1
  apply Finset.filter_congr
  intro b hb
  rw [hs.bits b (Finset.mem_range.mp hb)]

theorem freeCount_pos (hb : b < sb.size) (hfree : used sb d b = false) : 0 < freeCount sb d :=
  Finset.card_pos.mpr ⟨b, by simp [hb, hfree]⟩

theorem Fresh.ne_zero (h : Fresh sb d b) : b ≠ 0 := by
  have := four_le_dataStart sb
  have := h.data
  omega

theorem Fresh.ne_own (h : Fresh sb d b) (ht : Tally sb d own) (x : ℕ × ℕ) : own x ≠ b :=
  ht.accounts.ne_of_free h.free h.ne_zero x

theorem Tally.own_data (h : Tally sb d own) {x : ℕ × ℕ} (hx : own x ≠ 0) :
    dataStart sb ≤ own x :=
  (h.accounts.range x hx).1

theorem allocDisk_of_ne (hb : c ≠ b) (hc : c ≠ BBLOCK b sb.ninodes) :
    allocDisk sb d b c = d c := by
  rw [allocDisk, Function.update_of_ne hb, Function.update_of_ne hc]

@[simp] theorem allocDisk_self : allocDisk sb d b b = Bytes.zero := by
  rw [allocDisk, Function.update_self]

theorem allocDisk_data (hb : b < sb.size) (hc : dataStart sb ≤ c) (hne : c ≠ b) :
    allocDisk sb d b c = d c := by
  have hblk : BBLOCK b sb.ninodes < dataStart sb := BBLOCK_lt_dataStart (le_of_lt hb)
  exact allocDisk_of_ne hne (by omega)

theorem allocDisk_inode (hb : dataStart sb ≤ b) {i : ℕ} (hi : i < sb.ninodes) :
    allocDisk sb d b (IBLOCK i) = d (IBLOCK i) := by
  have h1 := IBLOCK_lt_BBLOCK hi b
  have h2 := IBLOCK_lt_BBLOCK hi sb.size
  unfold dataStart at hb
  exact allocDisk_of_ne (by omega) (by omega)

theorem Fresh.used_allocDisk (h : Fresh sb d b) (hc : c < sb.size) :
    used sb (allocDisk sb d b) c = if c = b then true else used sb d c := by
  have h1 : BBLOCK c sb.ninodes < dataStart sb := BBLOCK_lt_dataStart (le_of_lt hc)
  have h2 := h.data
  exact Xv6.used_allocDisk (by omega)

theorem Tally.give (h : Tally sb d own) (hb : Fresh sb d b) {x : ℕ × ℕ} (hx : own x = 0) :
    Tally sb (allocDisk sb d b) (Function.update own x b) := by
  have h4 := four_le_dataStart sb
  have hlo := hb.data
  constructor
  · rw [allocDisk_of_ne (by omega) (Nat.ne_of_lt (one_lt_BBLOCK b sb.ninodes)), h.superblock]
  · intro c hc hlt
    rw [hb.used_allocDisk hlt]
    split_ifs
    · rfl
    · exact h.before c hc hlt
  · refine (h.accounts.give hx hb.free hb.data hb.lt).congr_used (logStart_le sb) ?_
    intro c hc
    exact hb.used_allocDisk hc

theorem freeCount_allocDisk (hb : Fresh sb d b) :
    freeCount sb (allocDisk sb d b) + 1 = freeCount sb d := by
  have hmem : b ∈ (Finset.range sb.size).filter fun c => used sb d c = false := by
    simp [hb.lt, hb.free]
  have heq : ((Finset.range sb.size).filter fun c => used sb (allocDisk sb d b) c = false) =
      ((Finset.range sb.size).filter fun c => used sb d c = false).erase b := by
    ext c
    simp only [Finset.mem_filter, Finset.mem_range, Finset.mem_erase]
    constructor
    · rintro ⟨hc, hu⟩
      rw [hb.used_allocDisk hc] at hu
      split_ifs at hu with hcb
      exact ⟨hcb, hc, hu⟩
    · rintro ⟨hcb, hc, hu⟩
      rw [hb.used_allocDisk hc, if_neg hcb]
      exact ⟨hc, hu⟩
  rw [freeCount, heq, Finset.card_erase_add_one hmem, freeCount]

end bits

theorem balloc_spec {sb : Superblock} {s : Fs} {own : ℕ × ℕ → ℕ} (h : Tally sb s.disk own) :
    Prog.wp (balloc ROOTDEV) s (fun b t => Fresh sb s.disk b ∧ t = s.alloc sb b)
      (fun e => e = .panic "balloc: out of blocks" ∧ freeCount sb s.disk = 0) := by
  rcases balloc_cases h.superblock with ⟨b, hb, hfree, -, hrun⟩ | ⟨hfull, hrun⟩
  · rw [Prog.wp_of_eq hrun]
    refine ⟨⟨?_, hb, hfree⟩, rfl⟩
    by_contra hlt
    rw [h.before b (by omega) hb] at hfree
    exact Bool.noConfusion hfree
  · rw [Prog.wp_of_stop hrun]
    refine ⟨rfl, ?_⟩
    rw [freeCount, Finset.card_eq_zero, Finset.filter_eq_empty_iff]
    intro b hb
    rw [hfull b (Finset.mem_range.mp hb)]
    decide

end Xv6
