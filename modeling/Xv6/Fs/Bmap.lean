import Xv6.Fs.Growth
import Xv6.Fs.Inode

/-! `bmap`: the block of an index, allocated if it is the next one of the file. -/
namespace Xv6
open Prog

section rules

variable {s : Fs} {E : Stop → Prop}

def Fs.log (s : Fs) (sector : ℕ) (b : Block) : Fs :=
  { s with disk := Function.update s.disk sector b, logged := insert sector s.logged }

@[simp] theorem wp_panic {α : Type} {Q : α → Fs → Prop} (msg : String) :
    wp (panic msg : FsM α) s Q E ↔ E (.panic msg) := wp_stop _

@[simp] theorem wp_inodeAt {Q : Inode → Fs → Prop} (ip : InodeId) :
    wp (inodeAt ip) s Q E ↔ Q (s.inode ip) s := by
  simp only [inodeAt, wp_bind, wp_get, wp_pure]

@[simp] theorem wp_modifyInode {Q : Unit → Fs → Prop} (ip : InodeId) (g : Inode → Inode) :
    wp (modifyInode ip g) s Q E ↔ Q () (s.setInode ip (g (s.inode ip))) := wp_modify

@[simp] theorem wp_setDin {Q : Unit → Fs → Prop} (ip : InodeId) (g : Dinode → Dinode) :
    wp (setDin ip g) s Q E ↔
      Q () (s.setInode ip { s.inode ip with din := g (s.inode ip).din }) := wp_modify

@[simp] theorem wp_bread {Q : Block → Fs → Prop} (sector : ℕ) :
    wp (bread ROOTDEV sector) s Q E ↔ Q (s.disk sector) s := by
  simp only [bread, wp_bind, wp_get, ne_eq, not_true_eq_false, if_false, wp_pure]

theorem wp_bread_of {Q : Block → Fs → Prop} {dev : ℕ} (hdev : dev = ROOTDEV) (sector : ℕ) :
    wp (bread dev sector) s Q E ↔ Q (s.disk sector) s := by
  rw [hdev, wp_bread]

@[simp] theorem wp_logWrite {Q : Unit → Fs → Prop} (sector : ℕ) (b : Block) :
    wp (logWrite sector b) s Q E ↔ Q () (s.log sector b) := wp_modify

@[simp] theorem setInode_disk (ip : InodeId) (i : Inode) : (s.setInode ip i).disk = s.disk := rfl

@[simp] theorem setInode_inode (ip : InodeId) (i : Inode) : (s.setInode ip i).inode ip = i :=
  Function.update_self ..

@[simp] theorem setInode_setInode (ip : InodeId) (i j : Inode) :
    (s.setInode ip i).setInode ip j = s.setInode ip j := by
  unfold Fs.setInode
  rw [Function.update_idem]

theorem setInode_inode_of_ne {ip jp : InodeId} (h : jp ≠ ip) (i : Inode) :
    (s.setInode ip i).inode jp = s.inode jp := Function.update_of_ne h ..

end rules

/-- The cache entry `ip` holds inode `i`; `f` gives the inodes as they are in force, with that
of `ip` in memory, and `m` the number of positions each of them fills. -/
structure Holds (sb : Superblock) (s : Fs) (ip : InodeId) (i : ℕ) (f : ℕ → Dinode) (m : ℕ → ℕ) :
    Prop where
  layout : Layout sb s.disk f m
  dev : (s.inode ip).dev = ROOTDEV
  inum : (s.inode ip).inum = i
  lt : i < sb.ninodes
  din : f i = (s.inode ip).din

/-- Only the disk, the log and the dinode of `ip` differ. -/
structure Touches (ip : InodeId) (s t : Fs) : Prop where
  entry : t.inode ip = { s.inode ip with din := (t.inode ip).din }
  others : ∀ jp, jp ≠ ip → t.inode jp = s.inode jp
  file : t.file = s.file
  proc : t.proc = s.proc
  ops : t.ops = s.ops

/-- What `bmap` of index `bn` does to a file of `c` blocks. -/
structure Bmapped (sb : Superblock) (ip : InodeId) (i : ℕ) (f : ℕ → Dinode) (m : ℕ → ℕ) (c bn : ℕ)
    (s : Fs) (b : ℕ) (t : Fs) : Prop where
  touches : Touches ip s t
  holds : Holds sb t ip i (Function.update f i (t.inode ip).din)
    (Function.update m i (nslots (max c (bn + 1))))
  extend : Extends sb i f s.disk t.disk (s.inode ip).din (t.inode ip).din
  block : blockAt t.disk (t.inode ip).din bn = b
  count : freeCount sb t.disk + nslots (max c (bn + 1)) = freeCount sb s.disk + nslots c
  same : bn < c → t = s
  logged : ∀ bm, (∀ b < sb.size, BBLOCK b sb.ninodes = bm) → c ≤ bn →
    t.logged = insert b (insert bm
      (if bn < NDIRECT then s.logged else insert ((t.inode ip).din.addr NDIRECT) s.logged))

def OutOf (free need : ℕ) (e : Stop) : Prop := e = .panic "balloc: out of blocks" ∧ free < need

section bmap

variable {sb : Superblock} {s t : Fs} {ip : InodeId} {i c bn : ℕ} {f : ℕ → Dinode} {m : ℕ → ℕ}

theorem Touches.refl (ip : InodeId) (s : Fs) : Touches ip s s :=
  ⟨rfl, fun _ _ => rfl, rfl, rfl, rfl⟩

theorem Touches.trans {u : Fs} (h : Touches ip s t) (h' : Touches ip t u) : Touches ip s u where
  entry := by rw [h'.entry, h.entry]
  others jp hj := by rw [h'.others jp hj, h.others jp hj]
  file := h'.file.trans h.file
  proc := h'.proc.trans h.proc
  ops := h'.ops.trans h.ops

theorem Holds.slot_ne (h : Holds sb s ip i f m) {k : ℕ} :
    slot s.disk (s.inode ip).din k ≠ 0 ↔ k < m i := by
  rw [← h.din, h.layout.filled i h.lt]

theorem Holds.blockAt_ne (h : Holds sb s ip i f m) (hc : m i = nslots c) :
    blockAt s.disk (s.inode ip).din bn ≠ 0 ↔ bn < c := by
  rw [blockAt, h.slot_ne, hc, blockSlot_lt_nslots]

theorem Holds.bmapped_same (h : Holds sb s ip i f m) (hc : m i = nslots c) (hbn : bn < c) :
    Bmapped sb ip i f m c bn s (blockAt s.disk (s.inode ip).din bn) s := by
  have hmax : max c (bn + 1) = c := by omega
  constructor
  · exact Touches.refl ip s
  · rw [hmax, ← h.din, ← hc, Function.update_eq_self, Function.update_eq_self]
    exact h
  · exact Extends.refl ..
  · rfl
  · rw [hmax]
  · exact fun _ => rfl
  · intro bm _ hle
    omega

theorem Holds.given (h : Holds sb s ip i f m) {k : ℕ} {D' : Dinode} (hto : Touches ip s t)
    (hD : (t.inode ip).din = D')
    (hlay : Layout sb t.disk (Function.update f i D') (Function.update m i k)) :
    Holds sb t ip i (Function.update f i (t.inode ip).din) (Function.update m i k) where
  layout := by
    rw [hD]
    exact hlay
  dev := by rw [hto.entry, h.dev]
  inum := by rw [hto.entry, h.inum]
  lt := h.lt
  din := Function.update_self ..

/-- The state after `addrs[k]` has been given the block `b`. -/
def Fs.giveAddr (s : Fs) (sb : Superblock) (ip : InodeId) (k b : ℕ) : Fs :=
  (s.alloc sb b).setInode ip { s.inode ip with din := (s.inode ip).din.setAddr k b }

/-- The state after entry `k` of the indirect block has been given the block `b`. -/
def Fs.giveEntry (s : Fs) (sb : Superblock) (ind k b : ℕ) : Fs :=
  (s.alloc sb b).log ind ((s.disk ind).setWord (4 * (k - NDIRECT - 1)) b)

theorem giveAddr_inode (s : Fs) (k b : ℕ) :
    (s.giveAddr sb ip k b).inode ip =
      { s.inode ip with din := (s.inode ip).din.setAddr k b } := setInode_inode ..

theorem touches_giveAddr (s : Fs) (k b : ℕ) : Touches ip s (s.giveAddr sb ip k b) := by
  refine ⟨?_, fun jp hj => setInode_inode_of_ne hj _, rfl, rfl, rfl⟩
  rw [giveAddr_inode]

theorem Holds.giveAddr (h : Holds sb s ip i f m) {k b : ℕ} (hk : m i = k) (hk' : k ≤ NDIRECT)
    (hb : Fresh sb s.disk b) :
    Holds sb (s.giveAddr sb ip k b) ip i
      (Function.update f i ((s.giveAddr sb ip k b).inode ip).din) (Function.update m i (k + 1)) ∧
    Extends sb i f s.disk (s.giveAddr sb ip k b).disk (s.inode ip).din
      ((s.giveAddr sb ip k b).inode ip).din ∧
    slot (s.giveAddr sb ip k b).disk ((s.giveAddr sb ip k b).inode ip).din k = b := by
  have hext := h.layout.extends_giveAddr h.lt hb hk hk'
  have hlay := h.layout.giveAddr h.lt hb hk hk'
  have hslot := h.layout.slot_setAddr h.lt hb hk hk' k
  rw [h.din] at hext hlay hslot
  rw [if_pos rfl] at hslot
  refine ⟨h.given (touches_giveAddr s k b) rfl ?_, ?_, ?_⟩
  · rw [giveAddr_inode]
    exact hlay
  · rw [giveAddr_inode]
    exact hext
  · rw [giveAddr_inode]
    exact hslot

theorem Holds.giveEntry (h : Holds sb s ip i f m) {k b : ℕ} (hk : m i = k) (hlo : NDIRECT < k)
    (hhi : k ≤ MAXFILE) (hb : Fresh sb s.disk b) :
    Holds sb (s.giveEntry sb ((s.inode ip).din.addr NDIRECT) k b) ip i f
      (Function.update m i (k + 1)) ∧
    Extends sb i f s.disk (s.giveEntry sb ((s.inode ip).din.addr NDIRECT) k b).disk
      (s.inode ip).din (s.inode ip).din ∧
    slot (s.giveEntry sb ((s.inode ip).din.addr NDIRECT) k b).disk (s.inode ip).din k = b := by
  have hext := h.layout.extends_giveEntry h.lt hb hk hlo hhi
  have hlay := h.layout.giveEntry h.lt hb hk hlo hhi
  have hslot := h.layout.slot_entryDisk h.lt hb hk hlo hhi k
  rw [h.din] at hext hlay hslot
  rw [if_pos rfl] at hslot
  exact ⟨⟨hlay, h.dev, h.inum, h.lt, h.din⟩, hext, hslot⟩

theorem touches_giveEntry (s : Fs) (ind k b : ℕ) : Touches ip s (s.giveEntry sb ind k b) :=
  ⟨rfl, fun _ _ => rfl, rfl, rfl, rfl⟩

theorem freeCount_giveEntry (h : Holds sb s ip i f m) {k b : ℕ} (hm : NDIRECT < m i)
    (hb : Fresh sb s.disk b) :
    freeCount sb (s.giveEntry sb ((s.inode ip).din.addr NDIRECT) k b).disk + 1 =
      freeCount sb s.disk := by
  have hind := h.layout.ind_data h.lt hm
  rw [h.din] at hind
  rw [← freeCount_allocDisk hb]
  congr 1
  exact freeCount_congr (sameBits_update_data _ _ hind)

theorem Holds.bmapped_direct (h : Holds sb s ip i f m) (hc : m i = nslots c) (hbn : bn = c)
    (hdir : bn < NDIRECT) {b : ℕ} (hb : Fresh sb s.disk b) :
    Bmapped sb ip i f m c bn s b (s.giveAddr sb ip bn b) := by
  have hmax : max c (bn + 1) = bn + 1 := by omega
  have hm : m i = bn := by rw [hc, nslots, if_pos (by omega), hbn]
  have hn : nslots (bn + 1) = bn + 1 := by rw [nslots, if_pos (by omega)]
  obtain ⟨hheld, hext, hslot⟩ := h.giveAddr hm (by omega) hb
  constructor
  · exact touches_giveAddr s bn b
  · rw [hmax, hn]
    exact hheld
  · exact hext
  · rw [blockAt, blockSlot, if_pos hdir]
    exact hslot
  · have hcount : freeCount sb (s.giveAddr sb ip bn b).disk + 1 = freeCount sb s.disk :=
      freeCount_allocDisk hb
    rw [hmax, hn, ← hc, hm]
    omega
  · intro hlt
    omega
  · intro bm hbm _
    rw [if_pos hdir]
    show insert b (insert (BBLOCK b sb.ninodes) s.logged) = _
    rw [hbm b hb.lt]

theorem Holds.bmapped_entry (h : Holds sb s ip i f m) (hc : m i = nslots c) (hbn : bn = c)
    (hind : NDIRECT < bn) (hmax : bn < MAXFILE) {b : ℕ} (hb : Fresh sb s.disk b) :
    Bmapped sb ip i f m c bn s b
      (s.giveEntry sb ((s.inode ip).din.addr NDIRECT) (bn + 1) b) := by
  have hmax' : max c (bn + 1) = bn + 1 := by omega
  have hm : m i = bn + 1 := by rw [hc, nslots, if_neg (by omega), hbn]
  have hn : nslots (bn + 1) = bn + 1 + 1 := by rw [nslots, if_neg (by omega)]
  obtain ⟨hheld, hext, hslot⟩ := h.giveEntry hm (by omega) (by omega) hb
  constructor
  · exact touches_giveEntry ..
  · rw [hmax', hn]
    have hself : Function.update f i (s.inode ip).din = f := by
      rw [← h.din, Function.update_eq_self]
    show Holds sb _ ip i (Function.update f i (s.inode ip).din) _
    rw [hself]
    exact hheld
  · exact hext
  · rw [blockAt, blockSlot, if_neg (by omega)]
    exact hslot
  · have hcount := freeCount_giveEntry h (k := bn + 1) (by omega) hb
    rw [hmax', hn, ← hc, hm]
    omega
  · intro hlt
    omega
  · intro bm hbm _
    rw [if_neg (by omega)]
    show insert _ (insert b (insert (BBLOCK b sb.ninodes) s.logged)) = _
    rw [hbm b hb.lt, Finset.insert_comm, Finset.insert_comm _ bm]
    rfl

theorem Holds.bmapped_indirect (h : Holds sb s ip i f m) (hc : m i = nslots c)
    (hbn : NDIRECT = c) {a b : ℕ} (ha : Fresh sb s.disk a)
    (hb : Fresh sb (s.giveAddr sb ip NDIRECT a).disk b) :
    Bmapped sb ip i f m c NDIRECT s b
      ((s.giveAddr sb ip NDIRECT a).giveEntry sb a (NDIRECT + 1) b) := by
  have hmax : max c (NDIRECT + 1) = NDIRECT + 1 := by omega
  have hm : m i = NDIRECT := by rw [hc, nslots, if_pos (by omega), hbn]
  have hn : nslots (NDIRECT + 1) = NDIRECT + 1 + 1 := rfl
  obtain ⟨hheld, hext, hslot⟩ := h.giveAddr hm le_rfl ha
  have hm' : Function.update m i (NDIRECT + 1) i = NDIRECT + 1 := Function.update_self ..
  have hcount' := freeCount_giveEntry hheld (k := NDIRECT + 1) (by rw [hm']; omega) hb
  obtain ⟨hheld', hext', hslot'⟩ := hheld.giveEntry hm' (by omega) (by decide) hb
  have haddr : ((s.giveAddr sb ip NDIRECT a).inode ip).din.addr NDIRECT = a := by
    rw [← slot_of_le le_rfl]
    exact hslot
  rw [haddr] at hheld' hext' hslot' hcount'
  constructor
  · exact (touches_giveAddr s NDIRECT a).trans (touches_giveEntry ..)
  · rw [hmax, hn]
    rw [Function.update_idem] at hheld'
    exact hheld'
  · exact hext.trans hext' fun j hj => Function.update_of_ne hj ..
  · exact hslot'
  · have hcount : freeCount sb (s.giveAddr sb ip NDIRECT a).disk + 1 = freeCount sb s.disk :=
      freeCount_allocDisk ha
    rw [hmax, hn, ← hc, hm]
    omega
  · intro hlt
    omega
  · intro bm hbm _
    rw [if_neg (by omega)]
    show insert a (insert b (insert (BBLOCK b sb.ninodes)
      (insert a (insert (BBLOCK a sb.ninodes) s.logged)))) = insert b (insert bm (insert
        (((s.giveAddr sb ip NDIRECT a).inode ip).din.addr NDIRECT) s.logged))
    rw [haddr, hbm b hb.lt, hbm a ha.lt]
    ext x
    simp only [Finset.mem_insert]
    tauto

theorem nslots_lt {a b : ℕ} (h : a < b) : nslots a < nslots b := by
  unfold nslots
  split_ifs <;> omega

/-- `bmap` of an index at most the number of blocks finds the block or adds it to the file. -/
theorem bmap_spec (h : Holds sb s ip i f m) (hc : m i = nslots c) (hle : bn ≤ c)
    (hmax : bn < MAXFILE) :
    wp (bmap ip bn) s (Bmapped sb ip i f m c bn s)
      (OutOf (freeCount sb s.disk + nslots c) (nslots (max c (bn + 1)))) := by
  have hne : blockAt s.disk (s.inode ip).din bn ≠ 0 ↔ bn < c := h.blockAt_ne hc
  unfold bmap
  simp only [wp_bind, wp_inodeAt, h.dev]
  by_cases hdir : bn < NDIRECT
  · have haddr : (s.inode ip).din.addr bn = blockAt s.disk (s.inode ip).din bn := by
      rw [blockAt, blockSlot, if_pos hdir, slot_of_le (by omega)]
    rw [if_pos hdir, haddr]
    by_cases hlt : bn < c
    · rw [if_neg (hne.mpr hlt), wp_pure]
      exact h.bmapped_same hc hlt
    · rw [if_pos (by rwa [← not_not (a := blockAt _ _ _ = 0), ← ne_eq, hne])]
      simp only [wp_bind, wp_setDin, wp_pure]
      refine wp_mono (balloc_spec h.layout.tally) ?_ ?_
      · rintro b t ⟨hb, rfl⟩
        exact h.bmapped_direct hc (by omega) hdir hb
      · rintro e ⟨rfl, h0⟩
        refine ⟨rfl, ?_⟩
        rw [h0, zero_add]
        exact nslots_lt (by omega)
  · rw [if_neg hdir]
    have hn : NINDIRECT = MAXFILE - NDIRECT := rfl
    have hslot : NDIRECT < m i → blockAt s.disk (s.inode ip).din bn =
        (s.disk ((s.inode ip).din.addr NDIRECT)).word (4 * (bn - NDIRECT)) := by
      intro hm
      have hind := h.layout.ind_ne_zero h.lt hm
      rw [h.din] at hind
      rw [blockAt, blockSlot, if_neg hdir, slot_of_lt (by omega) (by omega) hind]
      congr 2
    rw [if_pos (by omega)]
    by_cases hind : (s.inode ip).din.addr NDIRECT = 0
    · have hcd : c = NDIRECT := by
        have hm : ¬ NDIRECT < m i := by
          rw [← h.slot_ne, slot_of_le le_rfl]
          exact not_not.mpr hind
        rw [hc, nslots] at hm
        split_ifs at hm <;> omega
      obtain rfl : bn = NDIRECT := by omega
      rw [if_pos hind]
      simp only [wp_bind, wp_setDin, wp_pure]
      refine wp_mono (balloc_spec h.layout.tally) ?_ ?_
      · rintro a t ⟨ha, rfl⟩
        obtain ⟨hheld, -, -⟩ := h.giveAddr (k := NDIRECT) (b := a) (by rw [hc, hcd]; rfl) le_rfl ha
        have hzero : (s.giveAddr sb ip NDIRECT a).disk a = Bytes.zero := allocDisk_self
        show wp (bread ROOTDEV a) (s.giveAddr sb ip NDIRECT a) _ _
        rw [wp_bread, hzero, Bytes.word_zero, if_pos rfl]
        simp only [wp_bind, wp_logWrite, wp_pure]
        refine wp_mono (balloc_spec hheld.layout.tally) ?_ ?_
        · rintro b t ⟨hb, rfl⟩
          have hpost := h.bmapped_indirect hc hcd.symm ha hb
          rw [Fs.giveEntry, hzero] at hpost
          exact hpost
        · rintro e ⟨rfl, h0⟩
          have hcount : freeCount sb (s.giveAddr sb ip NDIRECT a).disk + 1 = freeCount sb s.disk :=
            freeCount_allocDisk ha
          refine ⟨rfl, ?_⟩
          rw [hcd, show max NDIRECT (NDIRECT + 1) = NDIRECT + 1 by omega]
          rw [← hcount, h0]
          decide
      · rintro e ⟨rfl, h0⟩
        refine ⟨rfl, ?_⟩
        rw [h0, zero_add]
        exact nslots_lt (by omega)
    · have hm : NDIRECT < m i := by
        rw [← h.slot_ne, slot_of_le le_rfl]
        exact hind
      rw [if_neg hind, wp_bind, wp_pure, wp_bind, wp_bread, ← hslot hm]
      by_cases hlt : bn < c
      · rw [if_neg (hne.mpr hlt), wp_pure]
        exact h.bmapped_same hc hlt
      · rw [if_pos (by rwa [← not_not (a := blockAt _ _ _ = 0), ← ne_eq, hne])]
        simp only [wp_bind, wp_logWrite, wp_pure]
        have hgt : NDIRECT < bn := by
          rw [hc, nslots] at hm
          split_ifs at hm <;> omega
        refine wp_mono (balloc_spec h.layout.tally) ?_ ?_
        · rintro b t ⟨hb, rfl⟩
          have hpost := h.bmapped_entry hc (by omega) hgt hmax hb
          rw [Fs.giveEntry, show bn + 1 - NDIRECT - 1 = bn - NDIRECT by omega] at hpost
          exact hpost
        · rintro e ⟨rfl, h0⟩
          refine ⟨rfl, ?_⟩
          rw [h0, zero_add]
          exact nslots_lt (by omega)

end bmap

end Xv6
