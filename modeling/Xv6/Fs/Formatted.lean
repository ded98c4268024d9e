import Xv6.Fs.Stored
import Xv6.Mkfs.Built

/-! A disk on which no inode has a block yet is well formed. -/
namespace Xv6

theorem wellFormed_of_no_blocks {sb : Superblock} {d : Disk} (hsb : getSb (d 1) = sb)
    (hbits : ∀ b < sb.size, used sb d b = decide (b < dataStart sb))
    (haddrs : ∀ i < sb.ninodes, (dinodeAt d i).addrs = fun _ => 0)
    (hsize : ∀ i < sb.ninodes, (dinodeAt d i).size = 0) : WellFormed sb d := by
  have hslot : ∀ i < sb.ninodes, ∀ k, slot d (dinodeAt d i) k = 0 := by
    intro i hi k
    rw [← slot_zero (d := d) k]
    apply slot_congr_addrs
    rw [haddrs i hi]
    rfl
  have hown : ∀ x, owner sb d (dinodeAt d) x = 0 := by
    intro x
    unfold owner
    split_ifs with hx
    · exact hslot x.1 hx x.2
    · rfl
  have h4 := four_le_dataStart sb
  have hlog := logStart_le sb
  constructor
  · refine ⟨hsb, ?_, ?_⟩
    · intro b hb hlt
      rw [hbits b hlt, decide_eq_true hb]
    · refine ⟨by omega, ?_, ?_, ?_, ?_⟩
      · exact fun x y _ hne => absurd (hown x) hne
      · exact fun x hne => absurd (hown x) hne
      · exact fun x hne => absurd (hown x) hne
      · intro b hlo hhi hused
        rw [hbits b (by omega), decide_eq_true_eq] at hused
        omega
  · intro i hi k
    have hpos : positions (dinodeAt d i) = 0 := by
      rw [positions, hsize i hi]
      split_ifs <;> rfl
    rw [hslot i hi, hpos]
    omega

/-- The disk `mkfs` starts from, with the inode `D` as its root. -/
def formatted (D : Dinode) : Disk := fun b =>
  if b = 1 then Mkfs.sbBlock
  else if b = 2 then putDinode Bytes.zero ROOTINO D
  else if b = 28 then Mkfs.bitmap 29
  else Bytes.zero

theorem dinodeAt_formatted {D : Dinode} (hfit : D.Fits) {i : ℕ} (hi : i < 200) :
    dinodeAt (formatted D) i = if i = ROOTINO then D else Dinode.zero := by
  have hroot : ROOTINO = 1 := rfl
  rw [dinodeAt, IBLOCK_eq, IPB_eq]
  by_cases hblk : i / 8 + 2 = 2
  · have hmod : i % 8 = i := by omega
    rw [hblk, hmod]
    show getDinode (putDinode Bytes.zero ROOTINO D) i = _
    split_ifs with h1
    · rw [h1, getDinode_putDinode D (by decide), Dinode.wrap_of_fits hfit]
    · rw [getDinode_putDinode_of_ne D h1, getDinode_zero]
  · have hzero : formatted D (i / 8 + 2) = Bytes.zero := by
      unfold formatted
      rw [if_neg (by omega), if_neg hblk, if_neg (by omega)]
    rw [hzero, getDinode_zero, if_neg (by omega)]

theorem used_formatted (D : Dinode) {b : ℕ} (hb : b < mkfsSb.size) :
    used mkfsSb (formatted D) b = decide (b < dataStart mkfsSb) := by
  have hb' : b < 1024 := hb
  have hn : mkfsSb.ninodes = 200 := rfl
  have hblk : BBLOCK b mkfsSb.ninodes = 28 := by
    rw [BBLOCK_eq, hn]
    omega
  rw [used, hblk]
  show (Mkfs.bitmap 29).bit (b % BPB) = _
  rw [Mkfs.bit_bitmap (by decide), Nat.mod_eq_of_lt (lt_trans hb (by decide))]
  rfl

theorem le_freeCount_formatted (D : Dinode) : 995 ≤ freeCount mkfsSb (formatted D) := by
  have hsub : Finset.Ico 29 1024 ⊆
      (Finset.range mkfsSb.size).filter fun b => used mkfsSb (formatted D) b = false := by
    intro b hb
    obtain ⟨hlo, hhi⟩ := Finset.mem_Ico.mp hb
    rw [Finset.mem_filter, Finset.mem_range, used_formatted D hhi]
    exact ⟨hhi, decide_eq_false hlo.not_gt⟩
  have hcard := Finset.card_le_card hsub
  rwa [Nat.card_Ico] at hcard

theorem wellFormed_formatted {D : Dinode} (hfit : D.Fits) (haddrs : D.addrs = fun _ => 0)
    (hsize : D.size = 0) : WellFormed mkfsSb (formatted D) := by
  apply wellFormed_of_no_blocks
  · exact Mkfs.getSb_sbBlock
  · exact fun b hb => used_formatted D hb
  · intro i hi
    rw [dinodeAt_formatted hfit hi]
    split_ifs
    · exact haddrs
    · rfl
  · intro i hi
    rw [dinodeAt_formatted hfit hi]
    split_ifs
    · exact hsize
    · rfl

end Xv6
