import Xv6.Fs.Write

/-! Inodes as they are stored on disk: `iupdate`, and what a well-formed disk is. -/
namespace Xv6
open Prog

def storeInode (d : Disk) (i : ℕ) (D : Dinode) : Disk :=
  Function.update d (IBLOCK i) (putDinode (d (IBLOCK i)) (i % IPB) D)

def positions (D : Dinode) : ℕ := if D.type = 0 then 0 else nslots (nblk D.size)

/-- Every allocated inode has exactly the blocks that its size calls for, a free inode has
none, no block is owned twice, and the bitmap accounts for all of them. -/
def WellFormed (sb : Superblock) (d : Disk) : Prop :=
  Layout sb d (dinodeAt d) fun i => positions (dinodeAt d i)

section store

variable {sb : Superblock} {d : Disk} {i j : ℕ} {D : Dinode}

theorem dinodeAt_storeInode (d : Disk) (i : ℕ) (D : Dinode) (j : ℕ) :
    dinodeAt (storeInode d i D) j = if j = i then D.wrap else dinodeAt d j := by
  unfold dinodeAt storeInode
  by_cases hblk : IBLOCK j = IBLOCK i
  · rw [hblk, Function.update_self]
    split_ifs with hji
    · rw [hji, getDinode_putDinode _ (Nat.mod_lt i (by decide))]
    · rw [getDinode_putDinode_of_ne]
      rw [IBLOCK_eq, IBLOCK_eq] at hblk
      rw [IPB_eq]
      omega
  · rw [Function.update_of_ne hblk, if_neg]
    rintro rfl
    exact hblk rfl

theorem dinodeAt_fits (d : Disk) (i : ℕ) : (dinodeAt d i).Fits := getDinode_fits _ _

theorem storeInode_data (hi : i < sb.ninodes) {b : ℕ} (hb : dataStart sb ≤ b) :
    storeInode d i D b = d b := by
  have hlt := IBLOCK_lt_dataStart hi
  exact Function.update_of_ne (by omega) ..

theorem sameBits_storeInode (hi : i < sb.ninodes) : SameBits sb d (storeInode d i D) :=
  sameBits_update_inode d _ hi

theorem slot_congr_addrs {D D' : Dinode} (h : D'.addrs = D.addrs) (k : ℕ) :
    slot d D' k = slot d D k := by
  have haddr : ∀ k, D'.addr k = D.addr k := by
    intro k
    simp only [Dinode.addr, h]
  simp only [slot, haddr]

variable {f f' : ℕ → Dinode} {m m' : ℕ → ℕ}

theorem Layout.congr (h : Layout sb d f m) (hf : ∀ j < sb.ninodes, ∀ k,
    slot d (f' j) k = slot d (f j) k) (hm : ∀ j < sb.ninodes, m' j = m j) : Layout sb d f' m' := by
  have howner : owner sb d f' = owner sb d f := by
    funext x
    unfold owner
    split_ifs with hx
    · exact hf x.1 hx x.2
    · rfl
  constructor
  · rw [howner]
    exact h.tally
  · intro j hj k
    rw [hf j hj, hm j hj]
    exact h.filled j hj k

theorem Layout.kept_storeInode (h : Layout sb d f m) (hi : i < sb.ninodes) (D : Dinode)
    (hj : j < sb.ninodes) : Kept d (storeInode d i D) (f j) :=
  fun _ hk => storeInode_data hi (h.data hj hk)

theorem Layout.store (h : Layout sb d f m) (hi : i < sb.ninodes) (D : Dinode) :
    Layout sb (storeInode d i D) f m := by
  have hslot : ∀ j < sb.ninodes, ∀ k, slot (storeInode d i D) (f j) k = slot d (f j) k :=
    fun j hj k => (h.kept_storeInode hi D hj).slot_eq k
  have howner : owner sb (storeInode d i D) f = owner sb d f := by
    funext x
    unfold owner
    split_ifs with hx
    · exact hslot x.1 hx x.2
    · rfl
  constructor
  · rw [howner]
    exact h.tally.congr (sameBits_storeInode hi)
  · intro j hj k
    rw [hslot j hj]
    exact h.filled j hj k

/-- The inodes in force are those on disk once the one that differs has been stored. -/
theorem Layout.stored (h : Layout sb d f m) (hi : i < sb.ninodes)
    (hf : ∀ j < sb.ninodes, j ≠ i → f j = dinodeAt d j) (hfit : (f i).Fits) :
    (∀ j < sb.ninodes, dinodeAt (storeInode d i (f i)) j = f j) ∧
      Layout sb (storeInode d i (f i)) (dinodeAt (storeInode d i (f i))) m := by
  have hdin : ∀ j < sb.ninodes, dinodeAt (storeInode d i (f i)) j = f j := by
    intro j hj
    rw [dinodeAt_storeInode]
    split_ifs with hji
    · rw [hji, Dinode.wrap_of_fits hfit]
    · exact (hf j hj hji).symm
  refine ⟨hdin, (h.store hi (f i)).congr ?_ fun _ _ => rfl⟩
  intro j hj k
  rw [hdin j hj]

theorem Layout.addr_lt (h : Layout sb d f m) (hi : i < sb.ninodes) (k : Fin (NDIRECT + 1)) :
    (f i).addrs k < 2 ^ 32 := by
  have hk : k.val ≤ NDIRECT := Nat.le_of_lt_succ k.isLt
  have haddr : (f i).addrs k = slot d (f i) k.val := by
    rw [slot_of_le hk, Dinode.addr, dif_pos k.isLt]
  have hsize := h.size_lt
  by_cases h0 : slot d (f i) k.val = 0
  · rw [haddr, h0]
    decide
  · have hlt := h.lt_size hi h0
    omega

theorem Kept.byteAt_eq {d' : Disk} (h : Kept d d' D) {p : ℕ}
    (hp : blockAt d D (p / BSIZE) ≠ 0) : byteAt d' D p = byteAt d D p := by
  unfold byteAt blockAt
  rw [h.slot_eq, h _ hp]

theorem Kept.contents_eq {d' : Disk} (h : Kept d d' D)
    (hfull : ∀ bn < nblk D.size, blockAt d D bn ≠ 0) : contents d' D = contents d D := by
  unfold contents bytesFrom
  apply List.map_congr_left
  intro p hp
  exact h.byteAt_eq (hfull _ (lt_nblk (by rw [zero_add]; exact List.mem_range.mp hp)))

theorem WellFormed.blockAt_ne (h : WellFormed sb d) (hi : i < sb.ninodes)
    (ht : (dinodeAt d i).type ≠ 0) (bn : ℕ) :
    blockAt d (dinodeAt d i) bn ≠ 0 ↔ bn < nblk (dinodeAt d i).size := by
  rw [blockAt, h.filled i hi, positions, if_neg ht, blockSlot_lt_nslots]

end store

def Fs.iupdated (s : Fs) (ip : InodeId) : Fs :=
  s.log (IBLOCK (s.inode ip).inum)
    (putDinode (s.disk (IBLOCK (s.inode ip).inum)) ((s.inode ip).inum % IPB) (s.inode ip).din)

theorem wp_iupdate {s : Fs} {ip : InodeId} {Q : Unit → Fs → Prop} {E : Stop → Prop}
    (hdev : (s.inode ip).dev = ROOTDEV) : wp (iupdate ip) s Q E ↔ Q () (s.iupdated ip) := by
  unfold iupdate
  simp only [wp_bind, wp_inodeAt, hdev, wp_bread, wp_logWrite]
  rfl

def Fs.stored (s : Fs) (ip : InodeId) (D : Dinode) : Fs :=
  (s.setInode ip { s.inode ip with din := D }).iupdated ip

section stored

variable (s : Fs) (ip : InodeId) (D : Dinode)

theorem stored_inode : (s.stored ip D).inode ip = { s.inode ip with din := D } :=
  setInode_inode ..

theorem touches_stored : Touches ip s (s.stored ip D) := by
  refine ⟨?_, fun jp hj => setInode_inode_of_ne hj _, rfl, rfl, rfl⟩
  rw [stored_inode]

theorem stored_disk : (s.stored ip D).disk = storeInode s.disk (s.inode ip).inum D := by
  have hi : (s.setInode ip { s.inode ip with din := D }).inode ip = { s.inode ip with din := D } :=
    setInode_inode ..
  rw [Fs.stored, Fs.iupdated, hi]
  rfl

theorem stored_logged :
    (s.stored ip D).logged = insert (IBLOCK (s.inode ip).inum) s.logged := by
  have hi : (s.setInode ip { s.inode ip with din := D }).inode ip = { s.inode ip with din := D } :=
    setInode_inode ..
  rw [Fs.stored, Fs.iupdated, hi]
  rfl

end stored

theorem wp_store {s : Fs} {ip : InodeId} {Q : Unit → Fs → Prop} {E : Stop → Prop}
    (hdev : (s.inode ip).dev = ROOTDEV) (g : Dinode → Dinode) :
    wp (setDin ip g) s (fun _ t => wp (iupdate ip) t Q E) E ↔
      Q () (s.stored ip (g (s.inode ip).din)) := by
  rw [wp_setDin, wp_iupdate (by rw [setInode_inode, hdev])]
  rfl

end Xv6
