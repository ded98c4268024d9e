import Xv6.Fs.Slots

/-! An inode that fills its positions one after the other. -/
namespace Xv6

/-- Each inode fills exactly its first `m i` positions, and the bitmap accounts for them. -/
structure Layout (sb : Superblock) (d : Disk) (f : ℕ → Dinode) (m : ℕ → ℕ) : Prop where
  tally : Tally sb d (owner sb d f)
  filled : ∀ i < sb.ninodes, ∀ k, slot d (f i) k ≠ 0 ↔ k < m i

def Kept (d d' : Disk) (D : Dinode) : Prop :=
  ∀ k, slot d D k ≠ 0 → d' (slot d D k) = d (slot d D k)

/-- What an operation on inode `i` leaves alone: the inode blocks, the other inodes, and the
blocks that the inode itself has already. -/
structure Frames (sb : Superblock) (i : ℕ) (f : ℕ → Dinode) (d d' : Disk) (D D' : Dinode) :
    Prop where
  head : D' = { D with addrs := D'.addrs }
  inodes : ∀ j < sb.ninodes, d' (IBLOCK j) = d (IBLOCK j)
  others : ∀ j < sb.ninodes, j ≠ i → Kept d d' (f j)
  slots : ∀ k, slot d D k ≠ 0 → slot d' D' k = slot d D k

/-- An operation that adds blocks to inode `i` also leaves its data alone. -/
structure Extends (sb : Superblock) (i : ℕ) (f : ℕ → Dinode) (d d' : Disk) (D D' : Dinode) : Prop
    extends Frames sb i f d d' D D' where
  data : ∀ k, slot d D k ≠ 0 → k ≠ NDIRECT → d' (slot d D k) = d (slot d D k)

section kept

variable {sb : Superblock} {d d' d'' : Disk} {D D' D'' : Dinode} {f f' : ℕ → Dinode} {i : ℕ}

theorem Kept.slot_eq (h : Kept d d' D) (k : ℕ) : slot d' D k = slot d D k := by
  apply slot_congr
  intro h0
  have hk := h NDIRECT
  rw [slot_of_le le_rfl] at hk
  exact hk h0

theorem Kept.refl (d : Disk) (D : Dinode) : Kept d d D := fun _ _ => rfl

theorem Kept.trans (h : Kept d d' D) (h' : Kept d' d'' D) : Kept d d'' D := by
  intro k hk
  have hk' := h' k
  rw [h.slot_eq k] at hk'
  rw [hk' hk, h k hk]

theorem Frames.refl (sb : Superblock) (i : ℕ) (f : ℕ → Dinode) (d : Disk) (D : Dinode) :
    Frames sb i f d d D D :=
  ⟨rfl, fun _ _ => rfl, fun _ _ _ => Kept.refl d _, fun _ _ => rfl⟩

theorem Extends.refl (sb : Superblock) (i : ℕ) (f : ℕ → Dinode) (d : Disk) (D : Dinode) :
    Extends sb i f d d D D :=
  ⟨Frames.refl sb i f d D, fun _ _ _ => rfl⟩

theorem Frames.trans (h : Frames sb i f d d' D D') (h' : Frames sb i f' d' d'' D' D'')
    (hf : ∀ j, j ≠ i → f' j = f j) : Frames sb i f d d'' D D'' where
  head := by rw [h'.head, h.head]
  inodes j hj := by rw [h'.inodes j hj, h.inodes j hj]
  others j hj hne := (h.others j hj hne).trans (hf j hne ▸ h'.others j hj hne)
  slots k hk := by
    have hs := h.slots k hk
    rw [h'.slots k (hs ▸ hk), hs]

theorem Extends.trans (h : Extends sb i f d d' D D') (h' : Extends sb i f' d' d'' D' D'')
    (hf : ∀ j, j ≠ i → f' j = f j) : Extends sb i f d d'' D D'' where
  toFrames := h.toFrames.trans h'.toFrames hf
  data k hk hne := by
    have hs := h.slots k hk
    have hd := h'.data k (hs ▸ hk) hne
    rw [hs] at hd
    rw [hd, h.data k hk hne]

end kept

namespace Layout

variable {sb : Superblock} {d d' : Disk} {f : ℕ → Dinode} {m : ℕ → ℕ} {i j k l b : ℕ}

theorem owner_eq (hi : i < sb.ninodes) (k : ℕ) : owner sb d f (i, k) = slot d (f i) k :=
  if_pos hi

theorem data (h : Layout sb d f m) (hi : i < sb.ninodes) (hk : slot d (f i) k ≠ 0) :
    dataStart sb ≤ slot d (f i) k := by
  rw [← owner_eq hi] at hk ⊢
  exact h.tally.own_data hk

theorem lt_size (h : Layout sb d f m) (hi : i < sb.ninodes) (hk : slot d (f i) k ≠ 0) :
    slot d (f i) k < sb.size := by
  rw [← owner_eq hi] at hk ⊢
  exact (h.tally.accounts.range _ hk).2

theorem inj (h : Layout sb d f m) (hi : i < sb.ninodes) (hj : j < sb.ninodes)
    (heq : slot d (f i) k = slot d (f j) l) (hk : slot d (f i) k ≠ 0) : i = j ∧ k = l := by
  rw [← owner_eq hi, ← owner_eq hj] at heq
  rw [← owner_eq hi] at hk
  exact Prod.mk.inj (h.tally.accounts.inj _ _ heq hk)

theorem ne_fresh (h : Layout sb d f m) (hi : i < sb.ninodes) (hb : Fresh sb d b) (k : ℕ) :
    slot d (f i) k ≠ b := by
  rw [← owner_eq hi]
  exact hb.ne_own h.tally (i, k)

theorem le_MAXFILE (h : Layout sb d f m) (hi : i < sb.ninodes) : m i ≤ MAXFILE + 1 := by
  by_contra hlt
  have hne := (h.filled i hi (MAXFILE + 1)).mpr (by omega)
  exact hne (slot_eq_zero (by rw [MAXFILE_eq, NDIRECT_eq]; omega) (Or.inl (by omega)))

theorem eq_zero (h : Layout sb d f m) (hi : i < sb.ninodes) (hk : m i ≤ k) :
    slot d (f i) k = 0 := by
  by_contra hne
  have := (h.filled i hi k).mp hne
  omega

theorem allocDisk_slot (h : Layout sb d f m) (hj : j < sb.ninodes) (hb : Fresh sb d b)
    (hk : slot d (f j) k ≠ 0) : allocDisk sb d b (slot d (f j) k) = d (slot d (f j) k) :=
  allocDisk_data hb.lt (h.data hj hk) (h.ne_fresh hj hb k)

theorem size_lt (h : Layout sb d f m) : sb.size < 2 ^ 32 := by
  rw [← h.tally.superblock]
  exact Bytes.word_lt _ _

/-- The positions of inode `i` and of the others after one more block is given to `i`. -/
theorem of_slots (h : Layout sb d f m) (hi : i < sb.ninodes) (hk : m i = k) (hb : Fresh sb d b)
    (hbits : SameBits sb (allocDisk sb d b) d') {D' : Dinode}
    (hown : ∀ l, slot d' D' l = if l = k then b else slot d (f i) l)
    (hoth : ∀ j < sb.ninodes, j ≠ i → ∀ l, slot d' (f j) l = slot d (f j) l) :
    Layout sb d' (Function.update f i D') (Function.update m i (k + 1)) := by
  have hfree : owner sb d f (i, k) = 0 := by
    rw [owner_eq hi]
    exact h.eq_zero hi (le_of_eq hk)
  have howner : owner sb d' (Function.update f i D') =
      Function.update (owner sb d f) (i, k) b := by
    funext x
    obtain ⟨j, l⟩ := x
    by_cases hj : j < sb.ninodes
    · rw [owner_eq hj]
      by_cases hji : j = i
      · subst hji
        rw [Function.update_self, hown]
        split_ifs with hl
        · rw [hl, Function.update_self]
        · rw [Function.update_of_ne (by simp [hl]), owner_eq hj]
      · rw [Function.update_of_ne hji, Function.update_of_ne (by simp [hji]), owner_eq hj,
          hoth j hj hji]
    · have hji : j ≠ i := by
        rintro rfl
        exact hj hi
      rw [Function.update_of_ne (by simp [hji]), owner, owner, if_neg hj, if_neg hj]
  constructor
  · rw [howner]
    exact (h.tally.give hb hfree).congr hbits
  · intro j hj l
    by_cases hji : j = i
    · subst hji
      rw [Function.update_self, Function.update_self, hown]
      split_ifs with hl
      · have := hb.ne_zero
        omega
      · rw [h.filled j hj l]
        omega
    · rw [Function.update_of_ne hji, Function.update_of_ne hji, hoth j hj hji]
      exact h.filled j hj l

variable (h : Layout sb d f m) (hi : i < sb.ninodes) (hb : Fresh sb d b)
include h hi hb

theorem slot_setAddr (hk : m i = k) (hk' : k ≤ NDIRECT) (l : ℕ) :
    slot (allocDisk sb d b) ((f i).setAddr k b) l = if l = k then b else slot d (f i) l := by
  have haddr : ∀ l, ((f i).setAddr k b).addr l = if l = k then b else (f i).addr l :=
    fun l => Dinode.addr_setAddr _ _ (by omega)
  by_cases hl : l ≤ NDIRECT
  · rw [slot_of_le hl, slot_of_le hl, haddr]
  · have hzero : slot d (f i) l = 0 := h.eq_zero hi (by omega)
    rw [if_neg (by omega), hzero]
    by_cases hmax : l ≤ MAXFILE
    · by_cases hkn : k = NDIRECT
      · have hind : ((f i).setAddr k b).addr NDIRECT = b := by
          rw [haddr, if_pos hkn.symm]
        rw [slot_of_lt (by omega) hmax (by rw [hind]; exact hb.ne_zero), hind, allocDisk_self,
          Bytes.word_zero]
      · apply slot_eq_zero (by omega)
        right
        rw [haddr, if_neg (by omega), ← slot_of_le le_rfl]
        exact h.eq_zero hi (by omega)
    · exact slot_eq_zero (by omega) (Or.inl (by omega))

omit hi in
theorem kept_allocDisk {j : ℕ} (hj : j < sb.ninodes) : Kept d (allocDisk sb d b) (f j) :=
  fun _ hk => h.allocDisk_slot hj hb hk

theorem giveAddr (hk : m i = k) (hk' : k ≤ NDIRECT) :
    Layout sb (allocDisk sb d b) (Function.update f i ((f i).setAddr k b))
      (Function.update m i (k + 1)) := by
  apply h.of_slots hi hk hb ⟨rfl, fun _ _ => rfl⟩ (h.slot_setAddr hi hb hk hk')
  intro j hj _ l
  exact (h.kept_allocDisk hb hj).slot_eq l

theorem extends_giveAddr (hk : m i = k) (hk' : k ≤ NDIRECT) :
    Extends sb i f d (allocDisk sb d b) (f i) ((f i).setAddr k b) where
  head := rfl
  inodes j hj := allocDisk_inode hb.data hj
  others j hj _ := h.kept_allocDisk hb hj
  slots l hl := by
    have hne : l ≠ k := by
      rintro rfl
      exact hl (h.eq_zero hi (le_of_eq hk))
    rw [h.slot_setAddr hi hb hk hk', if_neg hne]
  data l hl _ := h.allocDisk_slot hi hb hl

omit hb in
theorem ind_ne_zero (hk : NDIRECT < m i) : (f i).addr NDIRECT ≠ 0 := by
  have hne := (h.filled i hi NDIRECT).mpr hk
  rwa [slot_of_le le_rfl] at hne

omit hb in
theorem ind_ne_slot {j l : ℕ} (hj : j < sb.ninodes) (hl : slot d (f j) l ≠ 0)
    (hne : ¬ (j = i ∧ l = NDIRECT)) : slot d (f j) l ≠ (f i).addr NDIRECT := by
  intro heq
  have hslot : slot d (f i) NDIRECT = (f i).addr NDIRECT := slot_of_le le_rfl
  rw [← hslot] at heq
  exact hne (h.inj hj hi heq hl)

/-- The disk after `b` has been entered at position `k` into the indirect block. -/
def entryDisk (sb : Superblock) (d : Disk) (ind k b : ℕ) : Disk :=
  Function.update (allocDisk sb d b) ind ((d ind).setWord (4 * (k - NDIRECT - 1)) b)

theorem kept_entryDisk (k : ℕ) {j l : ℕ} (hj : j < sb.ninodes)
    (hl : slot d (f j) l ≠ 0) (hne : ¬ (j = i ∧ l = NDIRECT)) :
    entryDisk sb d ((f i).addr NDIRECT) k b (slot d (f j) l) = d (slot d (f j) l) := by
  rw [entryDisk, Function.update_of_ne (h.ind_ne_slot hi hj hl hne)]
  exact h.allocDisk_slot hj hb hl

theorem slot_entryDisk (hk : m i = k) (hlo : NDIRECT < k) (hhi : k ≤ MAXFILE) (l : ℕ) :
    slot (entryDisk sb d ((f i).addr NDIRECT) k b) (f i) l =
      if l = k then b else slot d (f i) l := by
  have hind := h.ind_ne_zero hi (by omega)
  have hsize := h.size_lt
  have hlt := hb.lt
  by_cases hl : l ≤ NDIRECT
  · rw [slot_of_le hl, slot_of_le hl, if_neg (by omega)]
  · by_cases hmax : l ≤ MAXFILE
    · have hval : entryDisk sb d ((f i).addr NDIRECT) k b ((f i).addr NDIRECT) =
          (d ((f i).addr NDIRECT)).setWord (4 * (k - NDIRECT - 1)) b := Function.update_self ..
      rw [slot_of_lt (by omega) hmax hind, slot_of_lt (by omega) hmax hind, hval]
      split_ifs with hlk
      · subst hlk
        rw [Bytes.word_setWord_same, Nat.mod_eq_of_lt (by omega)]
        rw [NDIRECT_eq, BSIZE_eq]
        rw [MAXFILE_eq] at hmax
        omega
      · rw [Bytes.word_setWord_disjoint]
        omega
    · rw [slot_eq_zero (by omega) (Or.inl (by omega)), if_neg (by omega),
        slot_eq_zero (by omega) (Or.inl (by omega))]

omit hb in
theorem ind_data (hk : NDIRECT < m i) : dataStart sb ≤ (f i).addr NDIRECT := by
  have hne := h.ind_ne_zero hi hk
  have hslot : slot d (f i) NDIRECT = (f i).addr NDIRECT := slot_of_le le_rfl
  rw [← hslot] at hne ⊢
  exact h.data hi hne

theorem giveEntry (hk : m i = k) (hlo : NDIRECT < k) (hhi : k ≤ MAXFILE) :
    Layout sb (entryDisk sb d ((f i).addr NDIRECT) k b) f (Function.update m i (k + 1)) := by
  have hind := h.ind_data hi (by omega)
  have hoth : ∀ j < sb.ninodes, j ≠ i → ∀ l,
      slot (entryDisk sb d ((f i).addr NDIRECT) k b) (f j) l = slot d (f j) l := by
    intro j hj hne l
    have hkept : Kept d (entryDisk sb d ((f i).addr NDIRECT) k b) (f j) :=
      fun l' hl' => h.kept_entryDisk hi hb k hj hl' fun hji => hne hji.1
    exact hkept.slot_eq l
  have hlay := h.of_slots hi hk hb (sameBits_update_data _ _ hind)
    (h.slot_entryDisk hi hb hk hlo hhi) hoth
  rwa [Function.update_eq_self] at hlay

theorem extends_giveEntry (hk : m i = k) (hlo : NDIRECT < k) (hhi : k ≤ MAXFILE) :
    Extends sb i f d (entryDisk sb d ((f i).addr NDIRECT) k b) (f i) (f i) where
  head := rfl
  inodes j hj := by
    have hdata := h.ind_data hi (by omega)
    have hlt := IBLOCK_lt_dataStart hj
    rw [entryDisk, Function.update_of_ne (by omega), allocDisk_inode hb.data hj]
  others j hj hne l hl := h.kept_entryDisk hi hb k hj hl fun hji => hne hji.1
  slots l hl := by
    have hne : l ≠ k := by
      rintro rfl
      exact hl (h.eq_zero hi (le_of_eq hk))
    rw [h.slot_entryDisk hi hb hk hlo hhi, if_neg hne]
  data l hl hne := h.kept_entryDisk hi hb k hi hl fun hji => hne hji.2

end Layout

end Xv6
