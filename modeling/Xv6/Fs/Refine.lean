import Xv6.Fs.Formatted

/-! `readi` and `writei` on a well-formed disk refine reads and writes of a byte sequence. -/
namespace Xv6
open Prog

/-- The disk is well formed, and the cache entry `ip` holds an allocated inode in agreement
with it. -/
structure Synced (sb : Superblock) (s : Fs) (ip : InodeId) : Prop where
  disk : WellFormed sb s.disk
  dev : (s.inode ip).dev = ROOTDEV
  lt : (s.inode ip).inum < sb.ninodes
  din : (s.inode ip).din = dinodeAt s.disk (s.inode ip).inum
  type : (s.inode ip).din.type ≠ 0

/-- The conditions under which `writei` returns -1. -/
def WriteBad (off n size : ℕ) : Prop :=
  off > size ∨ (off + n) % 2 ^ 32 < off ∨ off + n > MAXFILE * BSIZE

instance (off n size : ℕ) : Decidable (WriteBad off n size) := by
  unfold WriteBad
  infer_instance

structure WriteDone (sb : Superblock) (ip : InodeId) (off : ℕ) (src : List UInt8) (s t : Fs) :
    Prop where
  touches : Touches ip s t
  synced : Synced sb t ip
  head : (t.inode ip).din = { (s.inode ip).din with
    size := max (s.inode ip).din.size (off + src.length), addrs := (t.inode ip).din.addrs }
  contents : contents t.disk (t.inode ip).din =
    (contents s.disk (s.inode ip).din).take off ++ src ++
      (contents s.disk (s.inode ip).din).drop (off + src.length)
  dinodes : ∀ j < sb.ninodes, j ≠ (s.inode ip).inum → dinodeAt t.disk j = dinodeAt s.disk j
  others : ∀ j < sb.ninodes, j ≠ (s.inode ip).inum → Kept s.disk t.disk (dinodeAt s.disk j)
  count : freeCount sb t.disk + nslots (nblk (t.inode ip).din.size) =
    freeCount sb s.disk + nslots (nblk (s.inode ip).din.size)
  logged : ∀ bm, (∀ b < sb.size, BBLOCK b sb.ninodes = bm) →
    t.logged = s.logged ∪ (touched off src.length).image (blockAt t.disk (t.inode ip).din) ∪
      growthLog bm ((t.inode ip).din.addr NDIRECT) (nblk (s.inode ip).din.size)
        (nblk (t.inode ip).din.size) ∪
      if off + src.length > (s.inode ip).din.size then {IBLOCK (s.inode ip).inum} else ∅

section sync

variable {sb : Superblock} {s t : Fs} {ip : InodeId} {off : ℕ} {src : List UInt8}

theorem Synced.holds (h : Synced sb s ip) :
    Holds sb s ip (s.inode ip).inum (dinodeAt s.disk) fun i => positions (dinodeAt s.disk i) :=
  ⟨h.disk, h.dev, rfl, h.lt, h.din.symm⟩

theorem Synced.positions (h : Synced sb s ip) :
    positions (dinodeAt s.disk (s.inode ip).inum) = nslots (nblk (s.inode ip).din.size) := by
  rw [← h.din, Xv6.positions, if_neg h.type]

theorem Synced.size_le (h : Synced sb s ip) : (s.inode ip).din.size ≤ MAXFILE * BSIZE := by
  have hle := h.disk.le_MAXFILE h.lt
  rw [h.positions, nslots, nblk_eq, MAXFILE_eq, NDIRECT_eq] at hle
  rw [MAXFILE_eq, BSIZE_eq]
  split_ifs at hle <;> omega

theorem contents_of_bytes {d d' : Disk} {D D' : Dinode}
    (hoff : off ≤ D.size) (hsize : D'.size = max D.size (off + src.length))
    (hwritten : ∀ p, off ≤ p → p < off + src.length → byteAt d' D' p = src.getD (p - off) 0)
    (hkept : ∀ p < D.size, p < off ∨ off + src.length ≤ p → byteAt d' D' p = byteAt d D p) :
    contents d' D' = (contents d D).take off ++ src ++ (contents d D).drop (off + src.length) := by
  have hlen : ((contents d D).take off).length = off := by
    rw [List.length_take, length_contents]
    omega
  apply List.ext_getElem
  · simp only [length_contents, List.length_append, List.length_take, List.length_drop]
    omega
  · intro p h1 h2
    rw [length_contents] at h1
    rw [getElem_contents]
    by_cases hp : p < off
    · rw [List.getElem_append_left (by rw [List.length_append]; omega),
        List.getElem_append_left (by omega), List.getElem_take, getElem_contents,
        hkept p (by omega) (Or.inl hp)]
    · by_cases hp' : p < off + src.length
      · rw [List.getElem_append_left (by rw [List.length_append]; omega),
          List.getElem_append_right (by omega), hwritten p (by omega) hp',
          List.getD_eq_getElem _ _ (by omega)]
        congr 1
        omega
      · rw [List.getElem_append_right (by rw [List.length_append]; omega), List.getElem_drop,
          getElem_contents, hkept p (by omega) (Or.inr (by omega))]
        congr 1
        rw [List.length_append]
        omega

theorem Frames.dinodeAt_eq {i : ℕ} {f : ℕ → Dinode} {d d' : Disk} {D D' : Dinode}
    (h : Frames sb i f d d' D D') {j : ℕ} (hj : j < sb.ninodes) : dinodeAt d' j = dinodeAt d j := by
  rw [dinodeAt, dinodeAt, h.inodes j hj]

theorem Written.done_same (h : Synced sb s ip)
    (hw : Written sb ip (s.inode ip).inum (dinodeAt s.disk)
      (fun i => Xv6.positions (dinodeAt s.disk i)) (nblk (s.inode ip).din.size) off src s t)
    (hle : off + src.length ≤ (s.inode ip).din.size) : WriteDone sb ip off src s t := by
  have hcap := le_nblk (s.inode ip).din.size
  have hD : (t.inode ip).din = (s.inode ip).din := hw.same (by omega)
  have hmax : max (nblk (s.inode ip).din.size) (nblk (off + src.length)) =
      nblk (s.inode ip).din.size := by
    have := nblk_mono hle
    omega
  have hinum : (t.inode ip).inum = (s.inode ip).inum := by rw [hw.touches.entry]
  have hdin : ∀ j < sb.ninodes, dinodeAt t.disk j = dinodeAt s.disk j :=
    fun j hj => hw.frames.dinodeAt_eq hj
  have hlay : Layout sb t.disk (dinodeAt s.disk) fun i => Xv6.positions (dinodeAt s.disk i) := by
    have hl := hw.holds.layout
    rw [hmax, hD, h.din, Function.update_eq_self, ← h.din, ← h.positions] at hl
    rw [Function.update_eq_self] at hl
    exact hl
  constructor
  · exact hw.touches
  · constructor
    · refine hlay.congr ?_ ?_
      · intro j hj k
        rw [hdin j hj]
      · intro j hj
        rw [hdin j hj]
    · rw [hw.touches.entry, h.dev]
    · rw [hinum]
      exact h.lt
    · rw [hinum, hD, hdin _ h.lt, h.din]
    · rw [hD]
      exact h.type
  · rw [hD, max_eq_left hle]
  · exact contents_of_bytes (by omega) (by rw [hD]; omega) hw.written
      fun p hp => hw.kept p (lt_nblk hp)
  · exact fun j hj _ => hdin j hj
  · exact fun j hj hne => hw.frames.others j hj hne
  · rw [hD, ← hmax, hw.count, hmax]
  · intro bm hbm
    rw [hw.logged bm hbm, hmax, hD, if_neg (by omega), Finset.union_empty]

def Fs.resized (t : Fs) (ip : InodeId) (size : ℕ) : Fs :=
  t.stored ip { (t.inode ip).din with size := size }

theorem resized_inode (t : Fs) (ip : InodeId) (size : ℕ) :
    (t.resized ip size).inode ip =
      { t.inode ip with din := { (t.inode ip).din with size := size } } := stored_inode ..

theorem touches_resized (t : Fs) (ip : InodeId) (size : ℕ) : Touches ip t (t.resized ip size) :=
  touches_stored ..

theorem resized_disk (t : Fs) (ip : InodeId) (size : ℕ) :
    (t.resized ip size).disk =
      storeInode t.disk (t.inode ip).inum { (t.inode ip).din with size := size } := stored_disk ..

theorem Written.done_grow (h : Synced sb s ip)
    (hw : Written sb ip (s.inode ip).inum (dinodeAt s.disk)
      (fun i => Xv6.positions (dinodeAt s.disk i)) (nblk (s.inode ip).din.size) off src s t)
    (hoff : off ≤ (s.inode ip).din.size) (hgt : (s.inode ip).din.size < off + src.length)
    (hcap : off + src.length ≤ MAXFILE * BSIZE) :
    WriteDone sb ip off src s (t.resized ip (off + src.length)) := by
  have hmax : max (nblk (s.inode ip).din.size) (nblk (off + src.length)) =
      nblk (off + src.length) := by
    have := nblk_mono (le_of_lt hgt)
    omega
  have hinum : (t.inode ip).inum = (s.inode ip).inum := by rw [hw.touches.entry]
  have hhead := hw.frames.head
  have hlay := hw.holds.layout
  have hfits : Dinode.Fits { (t.inode ip).din with size := off + src.length } := by
    have hfit := dinodeAt_fits s.disk (s.inode ip).inum
    rw [← h.din] at hfit
    refine ⟨?_, ?_, ?_, ?_, ?_, ?_⟩
    · rw [hhead]; exact hfit.type
    · rw [hhead]; exact hfit.major
    · rw [hhead]; exact hfit.minor
    · rw [hhead]; exact hfit.nlink
    · rw [MAXFILE_eq, BSIZE_eq] at hcap
      show off + src.length < 2 ^ 32
      omega
    · intro k
      have hlt := hlay.addr_lt h.lt k
      rw [Function.update_self] at hlt
      exact hlt
  have hslot : ∀ k, slot t.disk { (t.inode ip).din with size := off + src.length } k =
      slot t.disk (t.inode ip).din k := fun k => slot_congr_addrs rfl k
  have hlay' : Layout sb t.disk (Function.update (dinodeAt s.disk) (s.inode ip).inum
      { (t.inode ip).din with size := off + src.length })
      (Function.update (fun i => Xv6.positions (dinodeAt s.disk i)) (s.inode ip).inum
        (nslots (nblk (off + src.length)))) := by
    refine hlay.congr ?_ ?_
    · intro j _ k
      by_cases hj : j = (s.inode ip).inum
      · rw [hj, Function.update_self, Function.update_self, hslot]
      · rw [Function.update_of_ne hj, Function.update_of_ne hj]
    · rw [hmax]
      exact fun _ _ => rfl
  have hstored := hlay'.stored h.lt (fun j hj hne => by
    rw [Function.update_of_ne hne, hw.frames.dinodeAt_eq hj]) (by
    rw [Function.update_self]
    exact hfits)
  rw [Function.update_self] at hstored
  have hdisk : (t.resized ip (off + src.length)).disk = storeInode t.disk (s.inode ip).inum
      { (t.inode ip).din with size := off + src.length } := by
    rw [resized_disk, hinum]
  rw [← hdisk] at hstored
  obtain ⟨hdin, hwf⟩ := hstored
  have hown := hdin _ h.lt
  rw [Function.update_self] at hown
  have hkept := hlay'.kept_storeInode h.lt { (t.inode ip).din with size := off + src.length } h.lt
  rw [Function.update_self] at hkept
  have hblk : blockAt (t.resized ip (off + src.length)).disk
      ((t.resized ip (off + src.length)).inode ip).din = blockAt t.disk (t.inode ip).din := by
    funext bn
    rw [resized_inode, hdisk, blockAt, hkept.slot_eq, hslot, blockAt]
  have hbytes : ∀ p, p / BSIZE < nblk (off + src.length) →
      byteAt (t.resized ip (off + src.length)).disk
        ((t.resized ip (off + src.length)).inode ip).din p =
      byteAt t.disk (t.inode ip).din p := by
    intro p hp
    have hne : blockAt t.disk (t.inode ip).din (p / BSIZE) ≠ 0 :=
      (hw.holds.blockAt_ne (Function.update_self ..)).mpr (by omega)
    have hblk' : blockAt t.disk { (t.inode ip).din with size := off + src.length } (p / BSIZE) =
        blockAt t.disk (t.inode ip).din (p / BSIZE) := hslot _
    rw [resized_inode, hdisk, hkept.byteAt_eq (by rw [hblk']; exact hne), byteAt, byteAt, hblk']
  constructor
  · exact hw.touches.trans (touches_resized t ip _)
  · constructor
    · refine hwf.congr (fun _ _ _ => rfl) ?_
      intro j hj
      rw [hdin j hj]
      by_cases hji : j = (s.inode ip).inum
      · rw [hji, Function.update_self, Function.update_self, Xv6.positions, if_neg]
        rw [hhead]
        exact h.type
      · rw [Function.update_of_ne hji, Function.update_of_ne hji]
    · rw [resized_inode, hw.touches.entry, h.dev]
    · rw [resized_inode, hinum]
      exact h.lt
    · rw [resized_inode, hinum, hown]
    · rw [resized_inode, hhead]
      exact h.type
  · rw [resized_inode, hhead, max_eq_right (le_of_lt hgt)]
  · refine contents_of_bytes hoff ?_ ?_ ?_
    · rw [resized_inode, max_eq_right (le_of_lt hgt)]
    · intro p hlo hhi
      rw [hbytes p (lt_nblk hhi), hw.written p hlo hhi]
    · intro p hp hout
      rw [hbytes p (lt_nblk (by omega)), hw.kept p (lt_nblk hp) hout]
  · intro j hj hne
    rw [hdin j hj, Function.update_of_ne hne]
  · intro j hj hne
    have hkept := hlay'.kept_storeInode h.lt { (t.inode ip).din with size := off + src.length } hj
    rw [Function.update_of_ne hne] at hkept
    rw [hdisk]
    exact (hw.frames.others j hj hne).trans hkept
  · rw [hdisk, freeCount_congr (sameBits_storeInode h.lt), resized_inode, ← hw.count, hmax]
  · intro bm hbm
    have hlog : (t.resized ip (off + src.length)).logged =
        t.logged ∪ {IBLOCK (s.inode ip).inum} := by
      rw [Fs.resized, stored_logged, hinum, Finset.union_comm]
      rfl
    rw [hlog, hw.logged bm hbm, hblk, if_pos hgt, hmax, resized_inode]
    rfl

/-- `writei` either refuses, or writes all of `src`, or `balloc` runs out of blocks. -/
theorem writei_spec (devsw : Devsw) (h : Synced sb s ip) (hdev : (s.inode ip).din.type ≠ T_DEV)
    (src : List UInt8) (off : ℕ) :
    wp (writei devsw ip src off) s
      (fun r t => if WriteBad off src.length (s.inode ip).din.size then r = -1 ∧ t = s
        else r = src.length ∧ WriteDone sb ip off src s t)
      (fun e => ¬ WriteBad off src.length (s.inode ip).din.size ∧
        OutOf (freeCount sb s.disk + nslots (nblk (s.inode ip).din.size))
          (nslots (nblk (max (s.inode ip).din.size (off + src.length)))) e) := by
  unfold writei
  simp only [wp_bind, wp_inodeAt]
  rw [if_neg hdev]
  by_cases h1 : off > (s.inode ip).din.size ∨ (off + src.length) % 2 ^ 32 < off
  · have hbad : WriteBad off src.length (s.inode ip).din.size := by
      unfold WriteBad
      tauto
    simp only [if_pos h1, wp_pure, if_pos hbad, and_self]
  · rw [if_neg h1]
    by_cases h2 : off + src.length > MAXFILE * BSIZE
    · have hbad : WriteBad off src.length (s.inode ip).din.size := Or.inr (Or.inr h2)
      simp only [if_pos h2, wp_pure, if_pos hbad, and_self]
    · have hgood : ¬ WriteBad off src.length (s.inode ip).din.size := by
        unfold WriteBad
        tauto
      rw [not_or] at h1
      have hcap := le_nblk (s.inode ip).din.size
      have hmax : max (nblk (s.inode ip).din.size) (nblk (off + src.length)) ≤
          nblk (max (s.inode ip).din.size (off + src.length)) :=
        max_le (nblk_mono (le_max_left _ _)) (nblk_mono (le_max_right _ _))
      simp only [if_neg h2, wp_bind, if_neg hgood]
      refine wp_mono (writeiLoop_spec h.holds h.positions le_rfl (by omega) (by omega)) ?_ ?_
      · rintro off' t ⟨rfl, hw⟩
        have hsize : (t.inode ip).din.size = (s.inode ip).din.size := by rw [hw.frames.head]
        rw [wp_inodeAt, hsize]
        by_cases hgt : src.length > 0 ∧ off + src.length > (s.inode ip).din.size
        · rw [if_pos hgt]
          have hdev' : (t.inode ip).dev = ROOTDEV := by rw [hw.touches.entry, h.dev]
          simp only [wp_bind, wp_pure]
          rw [wp_store hdev']
          exact ⟨trivial, hw.done_grow h (by omega) hgt.2 (by omega)⟩
        · simp only [if_neg hgt, wp_pure]
          exact ⟨trivial, hw.done_same h (by omega)⟩
      · intro e he
        exact ⟨hgood, he.mono (nslots_mono hmax)⟩

theorem Synced.contents_other (h : Synced sb s ip) (hw : WriteDone sb ip off src s t) {j : ℕ}
    (hj : j < sb.ninodes) (hne : j ≠ (s.inode ip).inum) (ht : (dinodeAt s.disk j).type ≠ 0) :
    contents t.disk (dinodeAt t.disk j) = contents s.disk (dinodeAt s.disk j) := by
  rw [hw.dinodes j hj hne]
  apply (hw.others j hj hne).contents_eq
  intro bn hbn
  exact (h.disk.blockAt_ne hj ht bn).mpr hbn

/-- `writei` and `readi` of a non-device inode act on its contents as on a list of bytes. -/
theorem inode_refines_bytes (sb : Superblock) (devsw : Devsw) (s : Fs) (ip : InodeId)
    (h : Synced sb s ip) (hdev : (s.inode ip).din.type ≠ T_DEV) (off : ℕ) (hoff : off < 2 ^ 32) :
    (∀ src : List UInt8, src.length < 2 ^ 32 →
      (writei devsw ip src off s = .ok (-1) s ↔
        off > (s.inode ip).din.size ∨ 2 ^ 32 ≤ off + src.length ∨
          off + src.length > MAXFILE * BSIZE) ∧
      (¬ (off > (s.inode ip).din.size ∨ 2 ^ 32 ≤ off + src.length ∨
          off + src.length > MAXFILE * BSIZE) →
        nslots (nblk (max (s.inode ip).din.size (off + src.length))) ≤
          nslots (nblk (s.inode ip).din.size) + freeCount sb s.disk →
        ∃ t, writei devsw ip src off s = .ok src.length t ∧
          contents t.disk (t.inode ip).din =
            (contents s.disk (s.inode ip).din).take off ++ src ++
              (contents s.disk (s.inode ip).din).drop (off + src.length) ∧
          (t.inode ip).din.size = max (s.inode ip).din.size (off + src.length) ∧
          (t.inode ip).inum = (s.inode ip).inum ∧
          dinodeAt t.disk (t.inode ip).inum = (t.inode ip).din ∧
          ∀ j < sb.ninodes, j ≠ (s.inode ip).inum →
            dinodeAt t.disk j = dinodeAt s.disk j ∧
              ((dinodeAt s.disk j).type ≠ 0 →
                contents t.disk (dinodeAt t.disk j) = contents s.disk (dinodeAt s.disk j)))) ∧
    ∀ n < 2 ^ 32,
      readi devsw ip off n s =
        if off > (s.inode ip).din.size ∨ 2 ^ 32 ≤ off + n then .ok (-1, []) s
        else .ok (↑(min n ((s.inode ip).din.size - off)),
          ((contents s.disk (s.inode ip).din).drop off).take
            (min n ((s.inode ip).din.size - off))) s := by
  constructor
  · intro src hlen
    have hspec := writei_spec devsw h hdev src off
    have hbad : WriteBad off src.length (s.inode ip).din.size ↔
        off > (s.inode ip).din.size ∨ 2 ^ 32 ≤ off + src.length ∨
          off + src.length > MAXFILE * BSIZE := by
      unfold WriteBad
      rw [wraps_iff hoff hlen]
    rw [← hbad]
    cases hrun : writei devsw ip src off s with
    | stop e =>
      rw [wp_of_stop hrun] at hspec
      obtain ⟨hgood, -, hlt⟩ := hspec
      refine ⟨⟨fun heq => by simp at heq, fun hb => absurd hb hgood⟩, ?_⟩
      intro _ hroom
      omega
    | ok r t =>
      rw [wp_of_eq hrun] at hspec
      by_cases hb : WriteBad off src.length (s.inode ip).din.size
      · rw [if_pos hb] at hspec
        obtain ⟨rfl, rfl⟩ := hspec
        exact ⟨⟨fun _ => hb, fun _ => rfl⟩, fun hgood => absurd hb hgood⟩
      · rw [if_neg hb] at hspec
        obtain ⟨rfl, hw⟩ := hspec
        constructor
        · constructor
          · intro heq
            have hr : (src.length : ℤ) = -1 := (Outcome.ok.inj heq).1
            omega
          · exact fun hb' => absurd hb' hb
        · intro _ _
          refine ⟨t, rfl, hw.contents, ?_, ?_, hw.synced.din.symm, ?_⟩
          · rw [hw.head]
          · rw [hw.touches.entry]
          · exact fun j hj hne =>
              ⟨hw.dinodes j hj hne, fun ht => h.contents_other hw hj hne ht⟩
  · intro n hn
    have hspec := readi_spec (E := fun _ => False) devsw h.holds h.positions hdev off n
    simp only [wraps_iff hoff hn] at hspec
    cases hrun : readi devsw ip off n s with
    | stop e =>
      rw [wp_of_stop hrun] at hspec
      exact hspec.elim
    | ok r t =>
      rw [wp_of_eq hrun] at hspec
      obtain ⟨rfl, hspec⟩ := hspec
      split_ifs at hspec ⊢ with hb
      · rw [hspec]
      · rw [hspec, contents_slice]
        omega

end sync

def noDevices : Devsw := ⟨fun _ => none, fun _ => none, fun _ => (-1, []), fun _ => -1⟩

def openedFile : Fs :=
  (Fs.boot (formatted { Dinode.zero with type := T_FILE, nlink := 1 })).setInode 0
    ⟨ROOTDEV, ROOTINO, 1, true, true, { Dinode.zero with type := T_FILE, nlink := 1 }⟩

theorem synced_openedFile : Synced mkfsSb openedFile 0 := by
  have hfit : Dinode.Fits { Dinode.zero with type := T_FILE, nlink := 1 } := by
    refine ⟨by decide, by decide, by decide, by decide, by decide, ?_⟩
    intro _
    exact Nat.two_pow_pos 32
  constructor
  · exact wellFormed_formatted hfit rfl rfl
  · rfl
  · decide
  · have hroot : ROOTINO < 200 := by decide
    exact (dinodeAt_formatted hfit hroot).symm
  · decide

/-- Two bytes written to the empty file, and read back. -/
theorem inode_refines_bytes_opened : ∃ t,
    writei noDevices 0 [104, 105] 0 openedFile = .ok 2 t ∧
      contents t.disk (t.inode 0).din = [104, 105] ∧
      readi noDevices 0 0 5 t = .ok (2, [104, 105]) t := by
  have hfree : 995 ≤ freeCount mkfsSb openedFile.disk := le_freeCount_formatted _
  have hroom : nslots (nblk (max (openedFile.inode 0).din.size
      (0 + ([104, 105] : List UInt8).length))) = 1 := by decide
  obtain ⟨t, ht, hc, hsize, -⟩ := ((inode_refines_bytes mkfsSb noDevices openedFile 0
    synced_openedFile (by decide) 0 (by decide)).1 [104, 105] (by decide)).2 (by decide)
      (by rw [hroom]; omega)
  have hsize : (t.inode 0).din.size = 2 := hsize
  have hw := writei_spec noDevices synced_openedFile (by decide) [104, 105] 0
  rw [wp_of_eq ht, if_neg (by decide)] at hw
  have htype : (t.inode 0).din.type = T_FILE := by
    rw [hw.2.head]
    rfl
  have hread := (inode_refines_bytes mkfsSb noDevices t 0 hw.2.synced (by rw [htype]; decide) 0
    (by decide)).2 5 (by decide)
  rw [hsize, hc, if_neg (by decide)] at hread
  exact ⟨t, ht, hc, hread⟩

end Xv6
