import Xv6.Fs.Refine
import Xv6.Fs.Sysfile

/-! `filewrite` of a regular file: its transactions add up to one `writei`. -/
namespace Xv6
open Prog

/-- The inode on the disk that a cache entry stands for. -/
def Fs.dinodeOf (s : Fs) (ip : InodeId) : Dinode := dinodeAt s.disk (s.inode ip).inum

/-- The open file `f` has a regular file of a well-formed disk, whose inode is not locked, and its
offset is within the file. -/
structure OpenFile (sb : Superblock) (f : FileId) (ip : InodeId) (s : Fs) : Prop where
  inode : (s.file f).ip = ip
  disk : WellFormed sb s.disk
  dev : (s.inode ip).dev = ROOTDEV
  lt : (s.inode ip).inum < sb.ninodes
  ref : 1 ≤ (s.inode ip).ref
  idle : (s.inode ip).busy = false
  din : (s.inode ip).valid = true → (s.inode ip).din = s.dinodeOf ip
  regular : (s.dinodeOf ip).type = T_FILE
  off : (s.file f).off ≤ (s.dinodeOf ip).size

/-- The bytes `src` have been written at the offset of `f`. -/
structure FileWrote (sb : Superblock) (f : FileId) (ip : InodeId) (src : List UInt8) (s t : Fs) :
    Prop where
  opened : OpenFile sb f ip t
  off : (t.file f).off = (s.file f).off + src.length
  size : (t.dinodeOf ip).size = max (s.dinodeOf ip).size ((s.file f).off + src.length)
  contents : contents t.disk (t.dinodeOf ip) =
    (contents s.disk (s.dinodeOf ip)).take (s.file f).off ++ src ++
      (contents s.disk (s.dinodeOf ip)).drop ((s.file f).off + src.length)
  count : freeCount sb t.disk + nslots (nblk (t.dinodeOf ip).size) =
    freeCount sb s.disk + nslots (nblk (s.dinodeOf ip).size)

/-- How many of `n` bytes at `off` are written: all, or the whole transactions that end below the
greatest size of a file. -/
def filewritten (off n : ℕ) : ℕ :=
  if off + n ≤ MAXFILE * BSIZE then n
  else (MAXFILE * BSIZE - off) / filewriteMax * filewriteMax

def Fs.locked (s : Fs) (ip : InodeId) : Fs :=
  s.setInode ip { s.inode ip with busy := true, valid := true, din := s.dinodeOf ip }

section filewrite

variable {sb : Superblock} {f : FileId} {ip : InodeId} {s t u : Fs} {src : List UInt8}
  {E : Stop → Prop}

theorem filewriteMax_eq : filewriteMax = 6656 := rfl

@[simp] theorem wp_fileAt {Q : File → Fs → Prop} : wp (fileAt f) s Q E ↔ Q (s.file f) s := by
  simp only [fileAt, wp_bind, wp_get, wp_pure]

theorem OpenFile.synced (h : OpenFile sb f ip s) : Synced sb (s.locked ip) ip := by
  have hin : (s.locked ip).inode ip =
      { s.inode ip with busy := true, valid := true, din := s.dinodeOf ip } := setInode_inode ..
  refine ⟨h.disk, ?_, ?_, ?_, ?_⟩
  · rw [hin]
    exact h.dev
  · rw [hin]
    exact h.lt
  · rw [hin]
    rfl
  · rw [hin]
    dsimp only
    rw [h.regular]
    decide

theorem locked_din (s : Fs) (ip : InodeId) : ((s.locked ip).inode ip).din = s.dinodeOf ip := by
  rw [Fs.locked, setInode_inode]

theorem OpenFile.size_le (h : OpenFile sb f ip s) : (s.dinodeOf ip).size ≤ MAXFILE * BSIZE := by
  have hle := h.synced.size_le
  rwa [locked_din] at hle

theorem OpenFile.congr (h : OpenFile sb f ip s) (hf : t.file f = s.file f) (hd : t.disk = s.disk)
    (hi : t.inode ip = s.inode ip) : OpenFile sb f ip t := by
  have hdin : t.dinodeOf ip = s.dinodeOf ip := by rw [Fs.dinodeOf, hd, hi, Fs.dinodeOf]
  refine ⟨?_, ?_, ?_, ?_, ?_, ?_, ?_, ?_, ?_⟩
  · rw [hf]; exact h.inode
  · rw [hd]; exact h.disk
  · rw [hi]; exact h.dev
  · rw [hi]; exact h.lt
  · rw [hi]; exact h.ref
  · rw [hi]; exact h.idle
  · rw [hi, hdin]; exact h.din
  · rw [hdin]; exact h.regular
  · rw [hf, hdin]; exact h.off

theorem FileWrote.of_same (h : FileWrote sb f ip src t u) (hf : t.file f = s.file f)
    (hd : t.disk = s.disk) (hi : t.inode ip = s.inode ip) : FileWrote sb f ip src s u := by
  have hdin : t.dinodeOf ip = s.dinodeOf ip := by rw [Fs.dinodeOf, hd, hi, Fs.dinodeOf]
  obtain ⟨ho, hoff, hsize, hcontents, hcount⟩ := h
  rw [hf] at hoff
  rw [hf, hdin] at hsize
  rw [hf, hd, hdin] at hcontents
  rw [hd, hdin] at hcount
  exact ⟨ho, hoff, hsize, hcontents, hcount⟩

theorem FileWrote.nil (h : OpenFile sb f ip s) (ht : OpenFile sb f ip t)
    (hfile : t.file f = s.file f) (hdisk : t.disk = s.disk)
    (hinum : (t.inode ip).inum = (s.inode ip).inum) : FileWrote sb f ip [] s t := by
  have hdin : t.dinodeOf ip = s.dinodeOf ip := by rw [Fs.dinodeOf, hdisk, hinum, Fs.dinodeOf]
  refine ⟨ht, by rw [hfile]; rfl, ?_, ?_, by rw [hdisk, hdin]⟩
  · rw [hdin, List.length_nil, Nat.add_zero, max_eq_left h.off]
  · rw [hdin, hdisk, List.length_nil, Nat.add_zero, List.append_nil, List.take_append_drop]

theorem FileWrote.append {src' : List UInt8} (hoff : (s.file f).off ≤ (s.dinodeOf ip).size)
    (h : FileWrote sb f ip src s t) (h' : FileWrote sb f ip src' t u) :
    FileWrote sb f ip (src ++ src') s u := by
  have hlen : ((Xv6.contents s.disk (s.dinodeOf ip)).take (s.file f).off ++ src).length =
      (s.file f).off + src.length := by
    rw [List.length_append, List.length_take, length_contents, min_eq_left hoff]
  refine ⟨h'.opened, ?_, ?_, ?_, h'.count.trans h.count⟩
  · rw [h'.off, h.off, List.length_append, Nat.add_assoc]
  · rw [h'.size, h.off, h.size, List.length_append]
    omega
  · rw [h'.contents, h.off, h.contents, List.take_left' hlen, ← List.append_assoc,
      List.length_append, ← Nat.add_assoc, ← List.drop_drop, List.drop_left' hlen, List.drop_drop]

theorem wp_ilock {Q : Unit → Fs → Prop} (h : OpenFile sb f ip s) :
    wp (ilock ip) s Q E ↔ Q () (s.locked ip) := by
  have href := h.ref
  unfold ilock
  simp only [wp_bind, wp_inodeAt]
  rw [if_neg (by omega), if_neg (by rw [h.idle]; exact Bool.false_ne_true), wp_bind, wp_modifyInode]
  cases hval : (s.inode ip).valid with
  | true =>
    rw [if_pos rfl, wp_pure, Fs.locked, h.din hval]
  | false =>
    have hdisk : ∀ i : Inode, getDinode ((s.setInode ip i).disk (IBLOCK (s.inode ip).inum))
        ((s.inode ip).inum % IPB) = s.dinodeOf ip := fun _ => rfl
    rw [if_neg Bool.false_ne_true]
    simp only [wp_bind, wp_bread_of h.dev, wp_modifyInode, setInode_inode, setInode_setInode, hdisk]
    rw [if_neg (by rw [h.regular]; decide), wp_pure, Fs.locked]

theorem OpenFile.unlocked (h : OpenFile sb f ip s) (hf : t.file f = s.file f)
    (hd : t.disk = s.disk) (hi : t.inode ip = { (s.locked ip).inode ip with busy := false }) :
    FileWrote sb f ip [] s t := by
  have hin : t.inode ip =
      { s.inode ip with busy := false, valid := true, din := s.dinodeOf ip } := by
    rw [hi, Fs.locked, setInode_inode]
  have hdin : t.dinodeOf ip = s.dinodeOf ip := by rw [Fs.dinodeOf, hd, hin, Fs.dinodeOf]
  refine FileWrote.nil h ⟨by rw [hf]; exact h.inode, by rw [hd]; exact h.disk, ?_, ?_, ?_, ?_,
    ?_, by rw [hdin]; exact h.regular, by rw [hdin, hf]; exact h.off⟩ hf hd (by rw [hin])
  · rw [hin]
    exact h.dev
  · rw [hin]
    exact h.lt
  · rw [hin]
    exact h.ref
  · rw [hin]
  · intro _
    rw [hdin, hin]

theorem OpenFile.wrote (h : OpenFile sb f ip s)
    (hw : WriteDone sb ip (s.file f).off src (s.locked ip) u)
    (hf : t.file f = { s.file f with off := (s.file f).off + src.length }) (hd : t.disk = u.disk)
    (hi : t.inode ip = { u.inode ip with busy := false }) : FileWrote sb f ip src s t := by
  have hlocked : (s.locked ip).inode ip =
      { s.inode ip with busy := true, valid := true, din := s.dinodeOf ip } := setInode_inode ..
  have hin : t.inode ip =
      { s.inode ip with busy := false, valid := true, din := (u.inode ip).din } := by
    rw [hi, hw.touches.entry, hlocked]
  have hu : (u.inode ip).inum = (s.inode ip).inum := by rw [hw.touches.entry, hlocked]
  have hdin : t.dinodeOf ip = (u.inode ip).din := by
    rw [Fs.dinodeOf, hd, hin, hw.synced.din, hu]
  have hhead := hw.head
  have hcontents := hw.contents
  have hcount := hw.count
  rw [hlocked] at hhead hcontents hcount
  have hsize : (t.dinodeOf ip).size = max (s.dinodeOf ip).size ((s.file f).off + src.length) := by
    rw [hdin, hhead]
  refine ⟨⟨by rw [hf]; exact h.inode, by rw [hd]; exact hw.synced.disk, ?_, ?_, ?_, ?_, ?_, ?_, ?_⟩,
    by rw [hf], hsize, ?_, ?_⟩
  · rw [hin]
    exact h.dev
  · rw [hin]
    exact h.lt
  · rw [hin]
    exact h.ref
  · rw [hin]
  · intro _
    rw [hdin, hin]
  · rw [hdin, hhead]
    exact h.regular
  · rw [hsize, hf]
    exact le_max_right _ _
  · rw [hdin, hd, hcontents]
    rfl
  · rw [hdin, hd, hcount]
    rfl

theorem wp_unlockEnd {α : Type} {m : FsM α} {Q : α → Fs → Prop} (hbusy : (t.inode ip).busy = true)
    (href : 1 ≤ (t.inode ip).ref) :
    wp (do iunlock ip; endOp; m) t Q E ↔
      wp m { t.setInode ip { t.inode ip with busy := false } with
        logged := ∅, ops := t.logged :: t.ops } Q E := by
  unfold iunlock endOp
  simp only [wp_bind, wp_inodeAt]
  rw [if_neg (by rw [hbusy]; simp; omega), wp_modifyInode, wp_modify]
  rfl

/-- One round of the loop of `filewrite`. -/
theorem wp_round {α : Type} {g : ℤ → FsM α} {Q : α → Fs → Prop} (devsw : Devsw)
    (h : OpenFile sb f ip s) (hpos : 0 < src.length)
    (hroom : (s.file f).off + src.length ≤ MAXFILE * BSIZE →
      nslots (nblk (max (s.dinodeOf ip).size ((s.file f).off + src.length))) ≤
        freeCount sb s.disk + nslots (nblk (s.dinodeOf ip).size))
    (hgood : (s.file f).off + src.length ≤ MAXFILE * BSIZE →
      ∀ t, FileWrote sb f ip src s t → wp (g src.length) t Q E)
    (hbad : MAXFILE * BSIZE < (s.file f).off + src.length →
      ∀ t, FileWrote sb f ip [] s t → wp (g (-1)) t Q E) :
    wp (do
      beginOp
      let x ← fileAt f
      ilock x.ip
      let r ← writei devsw x.ip src x.off
      if r > 0 then modifyFile f fun x => { x with off := (x.off + r.toNat) % 2 ^ 32 } else pure ()
      iunlock x.ip
      endOp
      g r) s Q E := by
  have hcap : MAXFILE * BSIZE = 71680 := rfl
  have hoff := h.off
  obtain ⟨s0, hs0⟩ : ∃ s0 : Fs, s0 = { s with logged := ∅ } := ⟨_, rfl⟩
  have hf0 : s0.file f = s.file f := by rw [hs0]
  have hd0 : s0.disk = s.disk := by rw [hs0]
  have hi0 : s0.inode ip = s.inode ip := by rw [hs0]
  have h0 : OpenFile sb f ip s0 := h.congr hf0 hd0 hi0
  have hdin0 : s0.dinodeOf ip = s.dinodeOf ip := by rw [Fs.dinodeOf, hd0, hi0, Fs.dinodeOf]
  have hin0 : (s0.locked ip).inode ip =
      { s0.inode ip with busy := true, valid := true, din := s0.dinodeOf ip } := setInode_inode ..
  have href := h.ref
  have hdev : ((s0.locked ip).inode ip).din.type ≠ T_DEV := by
    rw [locked_din, h0.regular]
    decide
  have hspec := writei_spec devsw h0.synced hdev src (s0.file f).off
  have hbadIff : WriteBad (s0.file f).off src.length ((s0.locked ip).inode ip).din.size ↔
      MAXFILE * BSIZE < (s.file f).off + src.length := by
    rw [locked_din, hdin0, hf0, WriteBad]
    omega
  rw [beginOp, wp_bind, wp_modify, ← hs0, wp_bind, wp_fileAt, h0.inode, wp_bind, wp_ilock h0,
    wp_bind]
  refine wp_mono hspec ?_ ?_
  · intro r t hr
    by_cases hb : MAXFILE * BSIZE < (s.file f).off + src.length
    · rw [if_pos (hbadIff.mpr hb)] at hr
      obtain ⟨rfl, rfl⟩ := hr
      rw [if_neg (by omega), wp_unlockEnd (by rw [hin0]) (by rw [hin0, hi0]; exact href)]
      refine hbad hb _ (FileWrote.of_same (h0.unlocked ?_ ?_ ?_) hf0 hd0 hi0)
      · rfl
      · rfl
      · exact setInode_inode ..
    · rw [if_neg (mt hbadIff.mp hb)] at hr
      obtain ⟨rfl, hw⟩ := hr
      have hin : t.inode ip = { s0.inode ip with
          busy := true, valid := true, din := (t.inode ip).din } := by
        rw [hw.touches.entry, hin0]
      have hfile : t.file = s0.file := hw.touches.file
      have hadd : (s0.file f).off + src.length < 2 ^ 32 := by
        rw [hf0]
        omega
      rw [if_pos (by omega), wp_bind, modifyFile, wp_modify, wp_unlockEnd (by rw [hin])
        (by rw [hin, hi0]; exact href)]
      refine hgood (by omega) _ (FileWrote.of_same (h0.wrote hw ?_ ?_ ?_) hf0 hd0 hi0)
      · have hself : Function.update t.file f
            { t.file f with off := ((t.file f).off + (src.length : ℤ).toNat) % 2 ^ 32 } f =
            { t.file f with off := ((t.file f).off + (src.length : ℤ).toNat) % 2 ^ 32 } :=
          Function.update_self ..
        refine hself.trans ?_
        rw [hfile, Int.toNat_natCast, Nat.mod_eq_of_lt hadd]
      · rfl
      · exact setInode_inode ..
  · rintro e ⟨hgood', -, hlt⟩
    rw [hbadIff] at hgood'
    have hroom' := hroom (by omega)
    rw [locked_din, hdin0, hf0] at hlt
    have hdl : (s0.locked ip).disk = s.disk := hd0
    rw [hdl] at hlt
    omega

theorem filewritten_le (off n : ℕ) : filewritten off n ≤ n := by
  unfold filewritten
  split_ifs with hfit
  · exact le_rfl
  · have hle := Nat.div_mul_le_self (MAXFILE * BSIZE - off) filewriteMax
    omega

theorem filewritten_round {off n : ℕ} (hpos : 0 < n) :
    filewritten off n =
      if off + min n filewriteMax ≤ MAXFILE * BSIZE then
        min n filewriteMax + filewritten (off + min n filewriteMax) (n - min n filewriteMax)
      else 0 := by
  have hM := filewriteMax_eq
  unfold filewritten
  by_cases hfit : off + n ≤ MAXFILE * BSIZE
  · rw [if_pos hfit, if_pos (by omega), if_pos (by omega)]
    omega
  · rw [if_neg hfit]
    by_cases hround : off + min n filewriteMax ≤ MAXFILE * BSIZE
    · have hmin : min n filewriteMax = filewriteMax := by omega
      rw [if_pos hround, hmin, if_neg (by omega), hM]
      omega
    · rw [if_neg hround, hM]
      omega

theorem filewriteFrom_spec (devsw : Devsw) {fuel : ℕ} (h : OpenFile sb f ip s)
    (hfuel : src.length ≤ fuel)
    (hroom : nslots (nblk (max (s.dinodeOf ip).size
        ((s.file f).off + filewritten (s.file f).off src.length))) ≤
      freeCount sb s.disk + nslots (nblk (s.dinodeOf ip).size)) :
    wp (filewriteFrom devsw f fuel src) s
      (fun all t => (all = true ↔ (s.file f).off + src.length ≤ MAXFILE * BSIZE) ∧
        FileWrote sb f ip (src.take (filewritten (s.file f).off src.length)) s t)
      (fun _ => False) := by
  have hM := filewriteMax_eq
  have hempty : ∀ (src : List UInt8) (s : Fs), OpenFile sb f ip s → src.length = 0 →
      (s.file f).off + src.length ≤ MAXFILE * BSIZE ∧
        FileWrote sb f ip (src.take (filewritten (s.file f).off src.length)) s s := by
    intro src s h hlen
    have hle := h.size_le
    have hoff := h.off
    rw [List.length_eq_zero_iff.mp hlen, List.take_nil]
    exact ⟨by simp; omega, FileWrote.nil h h rfl rfl rfl⟩
  induction fuel generalizing s src with
  | zero =>
    have hlen : src.length = 0 := by omega
    rw [filewriteFrom, wp_pure]
    refine ⟨iff_of_true ?_ (hempty src s h hlen).1, (hempty src s h hlen).2⟩
    rw [List.length_eq_zero_iff.mp hlen]
    rfl
  | succ fuel ih =>
    rw [filewriteFrom]
    by_cases hpos : src.length > 0
    · have hlen : (src.take (min src.length filewriteMax)).length =
          min src.length filewriteMax := by
        rw [List.length_take]
        omega
      have hdrop : (src.drop (min src.length filewriteMax)).length =
          src.length - min src.length filewriteMax := List.length_drop
      have hround := @filewritten_round (s.file f).off src.length hpos
      rw [if_pos hpos]
      refine wp_round devsw h (by rw [hlen]; omega) ?_ ?_ ?_
      · intro hfit
        rw [hlen] at hfit ⊢
        rw [if_pos hfit] at hround
        exact le_trans (nslots_mono (nblk_mono (by omega))) hroom
      · intro hfit t ht
        rw [hlen] at hfit
        rw [if_pos hfit] at hround
        rw [if_neg (by omega), if_neg (by rw [hlen]; simp)]
        have hoff' : (t.file f).off = (s.file f).off + min src.length filewriteMax := by
          rw [ht.off, hlen]
        have hsize' := ht.size
        rw [hlen] at hsize'
        refine wp_mono (ih ht.opened (by omega) ?_) ?_ (fun _ hf => hf)
        · rw [hoff', hdrop, ht.count, hsize']
          refine le_trans (nslots_mono (nblk_mono ?_)) hroom
          omega
        · rintro all u ⟨hall, hu⟩
          rw [hoff', hdrop] at hall hu
          refine ⟨hall.trans (by omega), ?_⟩
          have happ := ht.append h.off hu
          rwa [hround, List.take_add]
      · intro hbad t ht
        rw [hlen] at hbad
        rw [if_neg (by omega)] at hround
        rw [if_pos (by omega), wp_pure, hround, List.take_zero]
        exact ⟨iff_of_false Bool.false_ne_true (by omega), ht⟩
    · have hlen : src.length = 0 := by omega
      rw [if_neg hpos, wp_pure]
      exact ⟨iff_of_true rfl (hempty src s h hlen).1, (hempty src s h hlen).2⟩

theorem filewrite_spec (devsw : Devsw) (h : OpenFile sb f ip s) (htype : (s.file f).type = .inode)
    (hwritable : (s.file f).writable = true)
    (hroom : nslots (nblk (max (s.dinodeOf ip).size
        ((s.file f).off + filewritten (s.file f).off src.length))) ≤
      freeCount sb s.disk + nslots (nblk (s.dinodeOf ip).size)) :
    wp (filewrite devsw f src) s
      (fun r t => r = (if (s.file f).off + src.length ≤ MAXFILE * BSIZE then (src.length : ℤ)
          else -1) ∧
        FileWrote sb f ip (src.take (filewritten (s.file f).off src.length)) s t)
      (fun _ => False) := by
  unfold filewrite
  rw [wp_bind, wp_fileAt, if_neg (by rw [hwritable]; simp), htype]
  refine wp_seq (filewriteFrom_spec devsw h le_rfl hroom) ?_
  rintro all t ⟨hall, ht⟩
  rw [wp_pure]
  refine ⟨?_, ht⟩
  cases all with
  | true => rw [if_pos rfl, if_pos (hall.mp rfl)]
  | false => rw [if_neg Bool.false_ne_true, if_neg fun hc => Bool.false_ne_true (hall.mpr hc)]

/-- One `writei` of all the bytes. -/
theorem lockedWrite_spec (devsw : Devsw) (h : OpenFile sb f ip s)
    (hfit : (s.file f).off + src.length ≤ MAXFILE * BSIZE)
    (hroom : nslots (nblk (max (s.dinodeOf ip).size ((s.file f).off + src.length))) ≤
      freeCount sb s.disk + nslots (nblk (s.dinodeOf ip).size)) :
    wp (do ilock ip; writei devsw ip src (s.file f).off) s
      (fun r t => r = src.length ∧ WriteDone sb ip (s.file f).off src (s.locked ip) t)
      (fun _ => False) := by
  have hcap : MAXFILE * BSIZE = 71680 := rfl
  have hoff := h.off
  have hdev : ((s.locked ip).inode ip).din.type ≠ T_DEV := by
    rw [locked_din, h.regular]
    decide
  have hgood : ¬WriteBad (s.file f).off src.length ((s.locked ip).inode ip).din.size := by
    rw [locked_din, WriteBad]
    omega
  rw [wp_bind, wp_ilock h]
  refine wp_mono (writei_spec devsw h.synced hdev src (s.file f).off) ?_ ?_
  · intro r t hr
    rwa [if_neg hgood] at hr
  · rintro e ⟨-, -, hlt⟩
    rw [locked_din] at hlt
    exact absurd hroom hlt.not_ge

/-- The transactions of `filewrite` cannot be seen: either all bytes are written as by one `writei`,
or those of the transactions that end below the greatest size of a file. -/
theorem filewrite_chunks (devsw : Devsw) (h : OpenFile sb f ip s)
    (htype : (s.file f).type = .inode) (hwritable : (s.file f).writable = true)
    (src : List UInt8)
    (hroom : nslots (nblk (max (s.dinodeOf ip).size
        ((s.file f).off + filewritten (s.file f).off src.length))) ≤
      freeCount sb s.disk + nslots (nblk (s.dinodeOf ip).size)) :
    ∃ r t, filewrite devsw f src s = .ok r t ∧
      (r = src.length ↔ (s.file f).off + src.length ≤ MAXFILE * BSIZE) ∧
      ((s.file f).off + src.length ≤ MAXFILE * BSIZE →
        (t.file f).off = (s.file f).off + src.length ∧
        ∃ u, (do ilock ip; writei devsw ip src (s.file f).off : FsM ℤ) s = .ok src.length u ∧
          contents t.disk (t.dinodeOf ip) = contents u.disk (u.dinodeOf ip) ∧
          (t.dinodeOf ip).size = (u.dinodeOf ip).size) ∧
      ∀ k, k = (MAXFILE * BSIZE - (s.file f).off) / filewriteMax →
        MAXFILE * BSIZE < (s.file f).off + src.length →
          r = -1 ∧ (t.file f).off = (s.file f).off + k * filewriteMax ∧
          (t.dinodeOf ip).size = max (s.dinodeOf ip).size ((s.file f).off + k * filewriteMax) ∧
          contents t.disk (t.dinodeOf ip) =
            (contents s.disk (s.dinodeOf ip)).take (s.file f).off ++
              src.take (k * filewriteMax) ++
              (contents s.disk (s.dinodeOf ip)).drop ((s.file f).off + k * filewriteMax) := by
  obtain ⟨r, t, hrun, rfl, ht⟩ := wp_total (filewrite_spec devsw h htype hwritable hroom)
  have hle := filewritten_le (s.file f).off src.length
  refine ⟨_, t, hrun, ?_, fun hfit => ?_, ?_⟩
  · by_cases hfit : (s.file f).off + src.length ≤ MAXFILE * BSIZE
    · rw [if_pos hfit]
      exact iff_of_true rfl hfit
    · rw [if_neg hfit]
      exact iff_of_false (by omega) hfit
  · have hall : filewritten (s.file f).off src.length = src.length := if_pos hfit
    rw [hall] at hroom ht
    rw [List.take_length] at ht
    obtain ⟨r, u, hrun', rfl, hw⟩ := wp_total (lockedWrite_spec devsw h hfit hroom)
    have hdin : u.dinodeOf ip = (u.inode ip).din := hw.synced.din.symm
    refine ⟨ht.off, u, hrun', ?_, ?_⟩
    · rw [ht.contents, hdin, hw.contents, locked_din]
      rfl
    · rw [ht.size, hdin, hw.head, locked_din]
  · rintro k rfl hbad
    have hpart : filewritten (s.file f).off src.length =
        (MAXFILE * BSIZE - (s.file f).off) / filewriteMax * filewriteMax := if_neg hbad.not_ge
    have hlen : (src.take (filewritten (s.file f).off src.length)).length =
        (MAXFILE * BSIZE - (s.file f).off) / filewriteMax * filewriteMax := by
      rw [List.length_take, min_eq_left hle, hpart]
    have hcontents := ht.contents
    rw [hlen, hpart] at hcontents
    exact ⟨if_neg hbad.not_ge, by rw [ht.off, hlen], by rw [ht.size, hlen], hcontents⟩

end filewrite

/-- The empty file of `openedFile`, unlocked and open for writing. -/
def writableFile : Fs :=
  { openedFile.setInode 0 { openedFile.inode 0 with busy := false } with
    file := fun _ => ⟨.inode, 1, true, true, 0, 0⟩ }

theorem openFile_writableFile : OpenFile mkfsSb 0 0 writableFile := by
  have hs := synced_openedFile
  have hin : writableFile.inode 0 = { openedFile.inode 0 with busy := false } :=
    setInode_inode (s := openedFile) 0 _
  have hdin : writableFile.dinodeOf 0 = (openedFile.inode 0).din := by
    rw [Fs.dinodeOf, hin]
    exact hs.din.symm
  refine ⟨rfl, hs.disk, ?_, ?_, ?_, ?_, ?_, ?_, Nat.zero_le _⟩
  · rw [hin]
    exact hs.dev
  · rw [hin]
    exact hs.lt
  · rw [hin]
    decide
  · rw [hin]
  · rw [hin, hdin]
    exact fun _ => rfl
  · rw [hdin]
    rfl

/-- Two transactions. -/
theorem filewrite_chunks_two : filewriteMax < 7000 ∧
    ∃ t, filewrite noDevices 0 (List.replicate 7000 104) writableFile = .ok 7000 t ∧
      (t.file 0).off = 7000 := by
  have hfree : 995 ≤ freeCount mkfsSb writableFile.disk := le_freeCount_formatted _
  have hsize : (writableFile.dinodeOf 0).size = 0 := by
    have hin : writableFile.inode 0 = { openedFile.inode 0 with busy := false } :=
      setInode_inode (s := openedFile) 0 _
    rw [Fs.dinodeOf, hin]
    exact congrArg Dinode.size synced_openedFile.din.symm
  have hlen : (List.replicate 7000 (104 : UInt8)).length = 7000 := List.length_replicate
  have hroom : nslots (nblk (max (writableFile.dinodeOf 0).size ((writableFile.file 0).off +
      filewritten (writableFile.file 0).off (List.replicate 7000 (104 : UInt8)).length))) = 15 := by
    rw [hsize, hlen]
    decide
  obtain ⟨r, t, hrun, hr, hall, -⟩ := filewrite_chunks noDevices openFile_writableFile rfl rfl
    (List.replicate 7000 104) (by rw [hroom]; omega)
  rw [hlen] at hr hall
  have hfit : (writableFile.file 0).off + 7000 ≤ MAXFILE * BSIZE := by decide
  obtain rfl := hr.mpr hfit
  exact ⟨by decide, t, hrun, (hall hfit).1⟩

end Xv6
