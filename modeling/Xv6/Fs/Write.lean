import Xv6.Fs.Content
import Mathlib.Order.Interval.Finset.Nat
import Mathlib.Data.Finset.Image

/-! `writei`: how it changes the bytes of a file, and which sectors it passes to the log. -/
namespace Xv6
open Prog

/-- The indexes of the blocks that hold `n` bytes at `off`. -/
def touched (off n : ℕ) : Finset ℕ := (Finset.Ico off (off + n)).image (· / BSIZE)

/-- What is logged besides data when a file grows from `c` to `c'` blocks: the bitmap block
and, if there is one, the indirect block. -/
def growthLog (bm ind c c' : ℕ) : Finset ℕ :=
  if c < c' then insert bm (if NDIRECT < c' then {ind} else ∅) else ∅

/-- The file of `c` blocks has been written at `off` with the bytes `src`. -/
structure Written (sb : Superblock) (ip : InodeId) (i : ℕ) (f : ℕ → Dinode) (m : ℕ → ℕ) (c off : ℕ)
    (src : List UInt8) (s t : Fs) : Prop where
  touches : Touches ip s t
  holds : Holds sb t ip i (Function.update f i (t.inode ip).din)
    (Function.update m i (nslots (max c (nblk (off + src.length)))))
  frames : Frames sb i f s.disk t.disk (s.inode ip).din (t.inode ip).din
  written : ∀ p, off ≤ p → p < off + src.length →
    byteAt t.disk (t.inode ip).din p = src.getD (p - off) 0
  kept : ∀ p, p / BSIZE < c → p < off ∨ off + src.length ≤ p →
    byteAt t.disk (t.inode ip).din p = byteAt s.disk (s.inode ip).din p
  count : freeCount sb t.disk + nslots (max c (nblk (off + src.length))) =
    freeCount sb s.disk + nslots c
  same : off + src.length ≤ BSIZE * c → (t.inode ip).din = (s.inode ip).din
  logged : ∀ bm, (∀ b < sb.size, BBLOCK b sb.ninodes = bm) →
    t.logged = s.logged ∪ (touched off src.length).image (blockAt t.disk (t.inode ip).din) ∪
      growthLog bm ((t.inode ip).din.addr NDIRECT) c (max c (nblk (off + src.length)))

theorem growthLog_union {bm ind ind' a b c : ℕ} (hab : a ≤ b) (hbc : b ≤ c)
    (hind : NDIRECT < b → ind = ind') :
    growthLog bm ind a b ∪ growthLog bm ind' b c = growthLog bm ind' a c := by
  unfold growthLog
  by_cases h1 : a < b
  · by_cases h2 : b < c
    · rw [if_pos h1, if_pos h2, if_pos (show a < c by omega)]
      by_cases h3 : NDIRECT < b
      · rw [hind h3, if_pos h3, if_pos (show NDIRECT < c by omega), Finset.union_self]
      · rw [if_neg h3, insert_empty_eq, Finset.singleton_union, Finset.insert_idem]
    · obtain rfl : b = c := by omega
      rw [if_pos h1, if_neg h2, Finset.union_empty, if_pos h1]
      by_cases h3 : NDIRECT < b
      · rw [hind h3]
      · rw [if_neg h3, if_neg h3]
  · obtain rfl : a = b := by omega
    rw [if_neg h1, Finset.empty_union]

section layout

variable {sb : Superblock} {d : Disk} {f : ℕ → Dinode} {m : ℕ → ℕ} {i k : ℕ}

theorem Layout.slot_write (h : Layout sb d f m) (hi : i < sb.ninodes) (hk : slot d (f i) k ≠ 0)
    (hne : k ≠ NDIRECT) (x : Block) {j : ℕ} (hj : j < sb.ninodes) (l : ℕ) :
    slot (Function.update d (slot d (f i) k) x) (f j) l = slot d (f j) l := by
  apply slot_congr
  intro _
  rw [Function.update_of_ne]
  intro heq
  have hslot : slot d (f j) NDIRECT = (f j).addr NDIRECT := slot_of_le le_rfl
  rw [← hslot] at heq
  exact hne (h.inj hi hj heq.symm hk).2

theorem Layout.write (h : Layout sb d f m) (hi : i < sb.ninodes) (hk : slot d (f i) k ≠ 0)
    (hne : k ≠ NDIRECT) (x : Block) : Layout sb (Function.update d (slot d (f i) k) x) f m := by
  have howner : owner sb (Function.update d (slot d (f i) k) x) f = owner sb d f := by
    funext y
    unfold owner
    split_ifs with hy
    · exact h.slot_write hi hk hne x hy y.2
    · rfl
  constructor
  · rw [howner]
    exact h.tally.congr (sameBits_update_data d x (h.data hi hk))
  · intro j hj l
    rw [h.slot_write hi hk hne x hj]
    exact h.filled j hj l

theorem Layout.kept_write (h : Layout sb d f m) (hi : i < sb.ninodes) (k : ℕ) (x : Block) {j : ℕ}
    (hj : j < sb.ninodes) (hji : j ≠ i) :
    Kept d (Function.update d (slot d (f i) k) x) (f j) := by
  intro l hl
  rw [Function.update_of_ne]
  intro heq
  exact hji (h.inj hj hi heq hl).1

end layout

theorem insert_insert_log (b bm : ℕ) (L X : Finset ℕ) :
    insert b (insert b (insert bm (X ∪ L))) = L ∪ {b} ∪ insert bm X := by
  ext x
  simp only [Finset.mem_insert, Finset.mem_union, Finset.mem_singleton]
  tauto

section block

variable {sb : Superblock} {s t : Fs} {ip : InodeId} {i c off b : ℕ} {f : ℕ → Dinode} {m : ℕ → ℕ}
  {src : List UInt8}

theorem touched_block (hpos : 0 < src.length) (hlen : src.length ≤ BSIZE - off % BSIZE) :
    touched off src.length = {off / BSIZE} := by
  have h512 : BSIZE = 512 := rfl
  ext x
  simp only [touched, Finset.mem_image, Finset.mem_Ico, Finset.mem_singleton]
  constructor
  · rintro ⟨p, ⟨hlo, hhi⟩, rfl⟩
    rw [h512] at hlen ⊢
    omega
  · rintro rfl
    exact ⟨off, ⟨le_rfl, by omega⟩, rfl⟩

theorem nblk_block (hpos : 0 < src.length) (hlen : src.length ≤ BSIZE - off % BSIZE) :
    nblk (off + src.length) = off / BSIZE + 1 := by
  rw [BSIZE_eq] at hlen ⊢
  rw [nblk_eq]
  omega

structure Overwrote (sb : Superblock) (ip : InodeId) (i : ℕ) (f : ℕ → Dinode) (m : ℕ → ℕ) (b : ℕ)
    (x : Block) (t : Fs) : Prop where
  holds : Holds sb (t.log b x) ip i f m
  frames : Frames sb i f t.disk (t.log b x).disk (t.inode ip).din (t.inode ip).din
  slots : ∀ k, slot (t.log b x).disk (t.inode ip).din k = slot t.disk (t.inode ip).din k
  count : freeCount sb (t.log b x).disk = freeCount sb t.disk

theorem Holds.overwrote (h : Holds sb t ip i f m) {bn : ℕ}
    (hb : blockAt t.disk (t.inode ip).din bn = b) (hne : b ≠ 0) (x : Block) :
    Overwrote sb ip i f m b x t := by
  have hslot : slot t.disk (f i) (blockSlot bn) = b := by
    rw [h.din]
    exact hb
  have hslot' : slot t.disk (f i) (blockSlot bn) ≠ 0 := by
    rw [hslot]
    exact hne
  have hdata := h.layout.data h.lt hslot'
  have hlay := h.layout.write h.lt hslot' (blockSlot_ne bn) x
  have hsame : ∀ k, slot (Function.update t.disk (slot t.disk (f i) (blockSlot bn)) x) (f i) k =
      slot t.disk (f i) k := fun k => h.layout.slot_write h.lt hslot' (blockSlot_ne bn) x h.lt k
  have hkept : ∀ j < sb.ninodes, j ≠ i →
      Kept t.disk (Function.update t.disk (slot t.disk (f i) (blockSlot bn)) x) (f j) :=
    fun j hj => h.layout.kept_write h.lt _ x hj
  rw [hslot] at hlay hdata hsame hkept
  rw [h.din] at hsame
  constructor
  · exact ⟨hlay, h.dev, h.inum, h.lt, h.din⟩
  · refine ⟨rfl, ?_, hkept, fun k _ => hsame k⟩
    intro j hj
    have hlt := IBLOCK_lt_dataStart hj
    exact Function.update_of_ne (by omega) ..
  · exact hsame
  · exact freeCount_congr (sameBits_update_data _ _ hdata)

theorem Overwrote.byteAt_eq {x : Block} (h : Overwrote sb ip i f m b x t) (p : ℕ) :
    byteAt (t.log b x).disk (t.inode ip).din p =
      if blockAt t.disk (t.inode ip).din (p / BSIZE) = b then x.get (p % BSIZE)
      else byteAt t.disk (t.inode ip).din p := by
  have hblk : blockAt (t.log b x).disk (t.inode ip).din (p / BSIZE) =
      blockAt t.disk (t.inode ip).din (p / BSIZE) := h.slots _
  unfold byteAt
  rw [hblk]
  split_ifs with hp
  · rw [hp]
    exact congrArg (fun y => Bytes.get y (p % BSIZE)) (Function.update_self ..)
  · exact congrArg (fun y => Bytes.get y (p % BSIZE)) (Function.update_of_ne hp ..)

theorem Holds.blockAt_inj (h : Holds sb t ip i f m) {a a' : ℕ}
    (heq : blockAt t.disk (t.inode ip).din a = blockAt t.disk (t.inode ip).din a')
    (hne : blockAt t.disk (t.inode ip).din a ≠ 0) : a = a' := by
  unfold blockAt at heq hne
  rw [← h.din] at heq hne
  exact blockSlot_inj (h.layout.inj h.lt h.lt heq hne).2

theorem Extends.byteAt_eq {d d' : Disk} {D D' : Dinode} (h : Extends sb i f d d' D D') {p : ℕ}
    (hp : blockAt d D (p / BSIZE) ≠ 0) : byteAt d' D' p = byteAt d D p := by
  have hblk : blockAt d' D' (p / BSIZE) = blockAt d D (p / BSIZE) := h.slots _ hp
  unfold byteAt
  rw [hblk]
  exact congrArg (fun y => Bytes.get y (p % BSIZE)) (h.data _ hp (blockSlot_ne _))

theorem Bmapped.wrote (hs : Holds sb s ip i f m) (hc : m i = nslots c)
    (hb : Bmapped sb ip i f m c (off / BSIZE) s b t) (hoff : off ≤ BSIZE * c)
    (hpos : 0 < src.length) (hlen : src.length ≤ BSIZE - off % BSIZE) :
    Written sb ip i f m c off src s (t.log b ((t.disk b).write (off % BSIZE) src)) := by
  have h512 : BSIZE = 512 := rfl
  have hnblk := nblk_block hpos hlen
  have hne : b ≠ 0 := by
    rw [← hb.block, hb.holds.blockAt_ne (Function.update_self ..)]
    omega
  have hover := hb.holds.overwrote hb.block hne ((t.disk b).write (off % BSIZE) src)
  constructor
  · exact hb.touches.trans ⟨rfl, fun _ _ => rfl, rfl, rfl, rfl⟩
  · rw [hnblk]
    exact hover.holds
  · exact hb.extend.toFrames.trans hover.frames fun j hj => Function.update_of_ne hj ..
  · intro p hlo hhi
    have hdiv : p / BSIZE = off / BSIZE := by
      rw [h512] at hlen ⊢
      omega
    have hmod : p % BSIZE = off % BSIZE + (p - off) := by
      rw [h512] at hlen ⊢
      omega
    show byteAt _ (t.inode ip).din p = _
    rw [hover.byteAt_eq, hdiv, if_pos hb.block, hmod,
      Bytes.get_write_of_mem (by omega) (by omega) (by rw [h512] at hlen ⊢; omega)]
    congr 1
    omega
  · intro p hp hout
    have hold := (hs.blockAt_ne hc).mpr hp
    have hext := hb.extend.byteAt_eq hold
    show byteAt _ (t.inode ip).din p = _
    rw [hover.byteAt_eq, ← hext]
    split_ifs with heq
    · have hdiv : p / BSIZE = off / BSIZE := by
        rw [← hb.block] at heq
        exact hb.holds.blockAt_inj heq (by rw [heq, hb.block]; exact hne)
      rw [Bytes.get_write_of_notMem, byteAt, heq]
      rw [h512] at hdiv ⊢
      omega
    · rfl
  · rw [hnblk, hover.count]
    exact hb.count
  · intro hle
    have hbn : off / BSIZE < c := Nat.div_lt_of_lt_mul (by omega)
    obtain rfl := hb.same hbn
    rfl
  · intro bm hbm
    have hblk : blockAt (t.log b ((t.disk b).write (off % BSIZE) src)).disk (t.inode ip).din
        (off / BSIZE) = b := (hover.slots _).trans hb.block
    show insert b t.logged = s.logged ∪
      (touched off src.length).image (blockAt (t.log b _).disk (t.inode ip).din) ∪
        growthLog bm ((t.inode ip).din.addr NDIRECT) c _
    rw [touched_block hpos hlen, Finset.image_singleton, hblk, hnblk, growthLog]
    by_cases hbn : off / BSIZE < c
    · obtain rfl := hb.same hbn
      rw [if_neg (by omega), Finset.union_empty, Finset.union_comm]
      rfl
    · have hle : c ≤ off / BSIZE := by omega
      have hmax : max c (off / BSIZE + 1) = off / BSIZE + 1 := by omega
      rw [hb.logged bm hbm hle, hmax, if_pos (show c < off / BSIZE + 1 by omega)]
      by_cases hdir : off / BSIZE < NDIRECT
      · rw [if_pos hdir, if_neg (by omega), ← insert_insert_log, Finset.empty_union]
      · rw [if_neg hdir, if_pos (by omega), ← insert_insert_log, Finset.singleton_union]

theorem Written.append {u : Fs} {src' : List UInt8} (h : Written sb ip i f m c off src s u)
    (h' : Written sb ip i (Function.update f i (u.inode ip).din)
      (Function.update m i (nslots (max c (nblk (off + src.length)))))
      (max c (nblk (off + src.length))) (off + src.length) src' u t) :
    Written sb ip i f m c off (src ++ src') s t := by
  have hlen : off + (src ++ src').length = off + src.length + src'.length := by
    rw [List.length_append, Nat.add_assoc]
  have hmono := nblk_mono (Nat.le_add_right (off + src.length) src'.length)
  have hmax : max c (nblk (off + (src ++ src').length)) =
      max (max c (nblk (off + src.length))) (nblk (off + src.length + src'.length)) := by
    rw [hlen]
    omega
  constructor
  · exact h.touches.trans h'.touches
  · have hh := h'.holds
    rw [Function.update_idem, Function.update_idem] at hh
    rw [hmax]
    exact hh
  · exact h.frames.trans h'.frames fun j hj => Function.update_of_ne hj ..
  · intro p hlo hhi
    by_cases hp : p < off + src.length
    · have hblk := lt_nblk hp
      rw [h'.kept p (by omega) (Or.inl hp), h.written p hlo hp,
        List.getD_append _ _ _ _ (by omega)]
    · rw [h'.written p (by omega) (by omega), List.getD_append_right _ _ _ _ (by omega)]
      congr 1
      omega
  · intro p hp hout
    rw [h'.kept p (by omega) (by omega), h.kept p hp (by omega)]
  · have h1 := h.count
    have h2 := h'.count
    rw [hmax]
    omega
  · intro hle
    have hle' : BSIZE * c ≤ BSIZE * max c (nblk (off + src.length)) :=
      Nat.mul_le_mul_left _ (by omega)
    rw [h'.same (by omega), h.same (by omega)]
  · intro bm hbm
    have himg : ∀ bn ∈ touched off src.length,
        blockAt u.disk (u.inode ip).din bn = blockAt t.disk (t.inode ip).din bn := by
      intro bn hbn
      obtain ⟨p, hp, rfl⟩ := Finset.mem_image.mp hbn
      have hlt := lt_nblk (Finset.mem_Ico.mp hp).2
      have hne : blockAt u.disk (u.inode ip).din (p / BSIZE) ≠ 0 :=
        (h.holds.blockAt_ne (Function.update_self ..)).mpr (by omega)
      exact (h'.frames.slots _ hne).symm
    have hind : NDIRECT < max c (nblk (off + src.length)) →
        (u.inode ip).din.addr NDIRECT = (t.inode ip).din.addr NDIRECT := by
      intro hlt
      have hne : slot u.disk (u.inode ip).din NDIRECT ≠ 0 := by
        rw [h.holds.slot_ne, Function.update_self, nslots, if_neg (by omega)]
        omega
      have hslot := h'.frames.slots NDIRECT hne
      rw [slot_of_le le_rfl, slot_of_le le_rfl] at hslot
      exact hslot.symm
    have htouch : touched off (src ++ src').length =
        touched off src.length ∪ touched (off + src.length) src'.length := by
      rw [touched, touched, touched, ← Finset.image_union, hlen,
        Finset.Ico_union_Ico_eq_Ico (by omega) (by omega)]
    have hgrow : growthLog bm ((u.inode ip).din.addr NDIRECT) c (max c (nblk (off + src.length))) ∪
        growthLog bm ((t.inode ip).din.addr NDIRECT) (max c (nblk (off + src.length)))
          (max (max c (nblk (off + src.length))) (nblk (off + src.length + src'.length))) =
        growthLog bm ((t.inode ip).din.addr NDIRECT) c
          (max (max c (nblk (off + src.length))) (nblk (off + src.length + src'.length))) :=
      growthLog_union (by omega) (by omega) hind
    rw [h'.logged bm hbm, h.logged bm hbm, hmax, htouch, Finset.image_union,
      Finset.image_congr himg, ← hgrow]
    ac_rfl

theorem Written.nil (h : Holds sb s ip i f m) (hc : m i = nslots c) (hoff : off ≤ BSIZE * c) :
    Written sb ip i f m c off [] s s := by
  have hmax : max c (nblk (off + ([] : List UInt8).length)) = c := by
    rw [List.length_nil, Nat.add_zero, nblk_eq]
    rw [BSIZE_eq] at hoff
    omega
  constructor
  · exact Touches.refl ip s
  · rw [hmax, ← hc, ← h.din, Function.update_eq_self, Function.update_eq_self]
    exact h
  · exact Frames.refl ..
  · intro p hlo hhi
    rw [List.length_nil] at hhi
    omega
  · exact fun _ _ _ => rfl
  · rw [hmax]
  · exact fun _ => rfl
  · intro bm _
    rw [hmax, growthLog, if_neg (by omega)]
    simp [touched]

theorem OutOf.mono {free need need' : ℕ} {e : Stop} (h : OutOf free need e) (hle : need ≤ need') :
    OutOf free need' e :=
  ⟨h.1, lt_of_lt_of_le h.2 hle⟩

/-- The loop of `writei` writes all of `src`, or `balloc` runs out of blocks. -/
theorem writeiLoop_spec (h : Holds sb s ip i f m) (hc : m i = nslots c) {fuel : ℕ}
    (hf : src.length ≤ fuel) (hoff : off ≤ BSIZE * c) (hmax : off + src.length ≤ MAXFILE * BSIZE) :
    wp (writeiLoop ip fuel off src) s
      (fun off' t => off' = off + src.length ∧ Written sb ip i f m c off src s t)
      (OutOf (freeCount sb s.disk + nslots c) (nslots (max c (nblk (off + src.length))))) := by
  induction fuel generalizing s f m c off src with
  | zero =>
    obtain rfl : src = [] := List.length_eq_zero_iff.mp (by omega)
    rw [writeiLoop, wp_pure]
    exact ⟨rfl, Written.nil h hc hoff⟩
  | succ fuel ih =>
    rw [writeiLoop]
    split_ifs with hpos
    · have hmod := Nat.mod_lt off (show 0 < BSIZE by decide)
      have hbn : off / BSIZE ≤ c := by
        rw [BSIZE_eq] at hoff ⊢
        omega
      have hbn' : off / BSIZE < MAXFILE := Nat.div_lt_of_lt_mul (by rw [Nat.mul_comm]; omega)
      simp only [wp_bind, wp_inodeAt, h.dev]
      generalize hk : min src.length (BSIZE - off % BSIZE) = k
      have hlen : (src.take k).length = k := by
        rw [List.length_take]
        omega
      have hnblk : nblk (off + k) = off / BSIZE + 1 := by
        have hblk : nblk (off + (src.take k).length) = off / BSIZE + 1 :=
          nblk_block (by omega) (by omega)
        rwa [hlen] at hblk
      have hmono : nblk (off + k) ≤ nblk (off + src.length) := nblk_mono (by omega)
      refine wp_mono (bmap_spec h hc hbn hbn') ?_ ?_
      · intro b t hb
        have hstep : Written sb ip i f m c off (src.take k) s
            (t.log b ((t.disk b).write (off % BSIZE) (src.take k))) :=
          hb.wrote h hc hoff (by omega) (by omega)
        rw [wp_bread, wp_logWrite]
        have hheld := hstep.holds
        rw [hlen] at hheld
        have hdrop : off + k + (src.drop k).length = off + src.length := by
          rw [List.length_drop]
          omega
        have hmaxeq : max (max c (nblk (off + k))) (nblk (off + src.length)) =
            max c (nblk (off + src.length)) := by omega
        refine wp_mono (ih hheld (Function.update_self ..) (by rw [List.length_drop]; omega) ?_
          (by omega)) ?_ ?_
        · exact le_trans (le_nblk (off + k)) (Nat.mul_le_mul_left _ (by omega))
        · rintro off' u ⟨rfl, hu⟩
          refine ⟨hdrop, ?_⟩
          have hall : Written sb ip i f m c off (src.take k ++ src.drop k) s u :=
            Written.append hstep (by rw [hlen]; exact hu)
          rwa [List.take_append_drop] at hall
        · intro e he
          have hcount := hstep.count
          rw [hlen] at hcount
          rw [hdrop, hmaxeq, hcount] at he
          exact he
      · intro e he
        apply he.mono
        apply nslots_mono
        omega
    · obtain rfl : src = [] := List.length_eq_zero_iff.mp (by omega)
      rw [wp_pure]
      exact ⟨rfl, Written.nil h hc hoff⟩

end block

end Xv6
