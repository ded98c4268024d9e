import Xv6.Mkfs.Image

/-! What is true of the images `mkfs` builds: the super block, the bitmap, and where the blocks
it gives to files lie. -/
namespace Xv6.Mkfs

/-- Sector `b` holds file data: it has been taken and is not an indirect block. -/
def IsData (I : Set ℕ) (fb b : ℕ) : Prop := 29 ≤ b ∧ b < fb ∧ b ∉ I

structure DinOk (I : Set ℕ) (fb : ℕ) (d : Dinode) : Prop where
  direct : ∀ k < NDIRECT, d.addr k = 0 ∨ IsData I fb (d.addr k)
  indirect : d.addr NDIRECT = 0 ∨ d.addr NDIRECT ∈ I

/-- The invariant of `mkfs`; `I` is the set of indirect blocks. -/
structure Inv (I : Set ℕ) (s : Mkfs) : Prop where
  sb : s.img 1 = sbBlock
  nsect : s.nsect = 1024
  lo : 29 ≤ s.freeblock
  used : s.usedblocks = s.freeblock
  given : ∀ b, b ∈ s.given ↔ 29 ≤ b ∧ b < s.freeblock
  fresh : ∀ b ≥ s.freeblock, s.img b = Bytes.zero
  range : ∀ b ∈ I, 29 ≤ b ∧ b < s.freeblock
  inodes : ∀ inum < 208, DinOk I s.freeblock (getDinode (s.img (i2b inum)) (inum % IPB))
  words : ∀ b ∈ I, ∀ j < NINDIRECT, (s.img b).word (4 * j) = 0 ∨
    IsData I s.freeblock ((s.img b).word (4 * j))

theorem i2b_eq (inum : ℕ) : i2b inum = inum / 8 + 2 := rfl

theorem IsData.mono {I : Set ℕ} {fb fb' b : ℕ} (h : IsData I fb b) (hle : fb ≤ fb') :
    IsData I fb' b :=
  ⟨h.1, by have := h.2.1; omega, h.2.2⟩

theorem IsData.insert {I : Set ℕ} {fb b : ℕ} (h : IsData I fb b) :
    IsData (insert fb I) (fb + 1) b := by
  refine ⟨h.1, by have := h.2.1; omega, ?_⟩
  rintro (rfl | hb)
  · exact absurd h.2.1 (lt_irrefl b)
  · exact h.2.2 hb

theorem DinOk.mono {I : Set ℕ} {fb fb' : ℕ} {d : Dinode} (h : DinOk I fb d) (hle : fb ≤ fb') :
    DinOk I fb' d :=
  ⟨fun k hk => (h.direct k hk).imp id fun hd => hd.mono hle, h.indirect⟩

theorem DinOk.insert {I : Set ℕ} {fb : ℕ} {d : Dinode} (h : DinOk I fb d) :
    DinOk (insert fb I) (fb + 1) d :=
  ⟨fun k hk => (h.direct k hk).imp id IsData.insert, h.indirect.imp id fun hi => Or.inr hi⟩

variable {I : Set ℕ} {s : Mkfs}

def taken (s : Mkfs) : Mkfs :=
  { s with
    freeblock := s.freeblock + 1
    usedblocks := s.usedblocks + 1
    given := s.freeblock :: s.given }

theorem takeBlock_eq (s : Mkfs) : takeBlock s = .ok s.freeblock (taken s) := rfl

theorem Inv.taken (h : Inv I s) : Inv I (taken s) where
  sb := h.sb
  nsect := h.nsect
  lo := Nat.le_succ_of_le h.lo
  used := congrArg (· + 1) h.used
  given b := by
    have hlo := h.lo
    simp only [Mkfs.taken, List.mem_cons, h.given]
    omega
  fresh b hb := h.fresh b (Nat.le_of_succ_le hb)
  range b hb := ⟨(h.range b hb).1, Nat.lt_succ_of_lt (h.range b hb).2⟩
  inodes inum hi := (h.inodes inum hi).mono (Nat.le_succ _)
  words b hb j hj := (h.words b hb j hj).imp id fun hd => hd.mono (Nat.le_succ _)

theorem Inv.takenIndirect (h : Inv I s) : Inv (insert s.freeblock I) (Mkfs.taken s) where
  sb := h.sb
  nsect := h.nsect
  lo := Nat.le_succ_of_le h.lo
  used := congrArg (· + 1) h.used
  given := h.taken.given
  fresh := h.taken.fresh
  range := by
    rintro b (rfl | hb)
    · exact ⟨h.lo, Nat.lt_succ_self _⟩
    · exact h.taken.range b hb
  inodes inum hi := (h.inodes inum hi).insert
  words := by
    rintro b (rfl | hb) j hj
    · left
      show (s.img s.freeblock).word (4 * j) = 0
      rw [h.fresh _ le_rfl, Bytes.word_zero]
    · exact (h.words b hb j hj).imp id IsData.insert

def written (s : Mkfs) (sec : ℕ) (buf : Block) : Mkfs :=
  { s with img := Function.update s.img sec buf, nsect := max s.nsect (sec + 1) }

/-- A write to a sector in use keeps the invariant if what it puts there does. -/
theorem Inv.write (h : Inv I s) {x : ℕ} {buf : Block} (h1 : x ≠ 1) (hn : x < 1024)
    (hfb : x < s.freeblock)
    (hin : ∀ inum < 208, i2b inum = x → DinOk I s.freeblock (getDinode buf (inum % IPB)))
    (hw : x ∈ I → ∀ j < NINDIRECT, buf.word (4 * j) = 0 ∨
      IsData I s.freeblock (buf.word (4 * j))) : Inv I (written s x buf) := by
  have hother : ∀ b, b ≠ x → (written s x buf).img b = s.img b := by
    intro b hb
    simp [written, hb]
  have hself : (written s x buf).img x = buf := by simp [written]
  constructor
  · exact (hother 1 h1.symm).trans h.sb
  · show max s.nsect (x + 1) = 1024
    rw [h.nsect]
    omega
  · exact h.lo
  · exact h.used
  · exact h.given
  · intro b hb
    have hle : s.freeblock ≤ b := hb
    rw [hother b (by omega)]
    exact h.fresh b hb
  · exact h.range
  · intro inum hi
    by_cases hx : i2b inum = x
    · rw [hx, hself]
      exact hin inum hi hx
    · rw [hother _ hx]
      exact h.inodes inum hi
  · intro b hb j hj
    by_cases hx : b = x
    · subst hx
      rw [hself]
      exact hw hb j hj
    · rw [hother b hx]
      exact h.words b hb j hj

theorem i2b_lt {inum : ℕ} (h : inum < 208) : 1 < i2b inum ∧ i2b inum < 28 := by
  rw [i2b_eq]
  omega

theorem Inv.writeData (h : Inv I s) {x : ℕ} (hx : IsData I s.freeblock x) (hn : x < 1024)
    (buf : Block) : Inv I (written s x buf) := by
  have hlo := hx.1
  refine h.write (by omega) hn hx.2.1 ?_ ?_
  · intro inum hi he
    have := i2b_lt hi
    omega
  · exact fun hI => absurd hI hx.2.2

theorem Inv.writeEntry (h : Inv I s) {x j b : ℕ} (hx : x ∈ I) (hn : x < 1024)
    (hb : IsData I s.freeblock b) (hb' : b < 2 ^ 32) (hj : j < NINDIRECT) :
    Inv I (written s x ((s.img x).setWord (4 * j) b)) := by
  obtain ⟨hlo, hhi⟩ := h.range x hx
  refine h.write (by omega) hn hhi ?_ ?_
  · intro inum hi he
    have := i2b_lt hi
    omega
  · intro _ j' hj'
    have hj128 : j < 128 := hj
    by_cases hjj : j' = j
    · subst hjj
      rw [Bytes.word_setWord_same (by unfold BSIZE; omega), Nat.mod_eq_of_lt hb']
      exact Or.inr hb
    · rw [Bytes.word_setWord_disjoint (by omega)]
      exact h.words x hx j' hj'

theorem Inv.addr_wrap (h : Inv I s) {d : Dinode} (hd : DinOk I s.freeblock d)
    (hfb : s.freeblock ≤ 2 ^ 32) (k : ℕ) : d.wrap.addr k = d.addr k := by
  rw [Dinode.addr_wrap]
  apply Nat.mod_eq_of_lt
  have hlt : d.addr k = 0 ∨ d.addr k < s.freeblock := by
    by_cases hk : k < NDIRECT
    · exact (hd.direct k hk).imp id fun h0 => h0.2.1
    · by_cases hk' : k = NDIRECT
      · rw [hk']
        exact hd.indirect.imp id fun h0 => (h.range _ h0).2
      · left
        rw [Dinode.addr, dif_neg (by omega)]
  omega

theorem Inv.writeInode (h : Inv I s) {inum : ℕ} (hi : inum < 208) {d : Dinode}
    (hd : DinOk I s.freeblock d) (hfb : s.freeblock ≤ 2 ^ 32) :
    Inv I (written s (i2b inum) (putDinode (s.img (i2b inum)) (inum % IPB) d)) := by
  have hb := i2b_lt hi
  have hlo := h.lo
  refine h.write (by omega) (by omega) (by omega) ?_ ?_
  · intro inum' hi' he
    by_cases hmod : inum' % IPB = inum % IPB
    · have haddr := h.addr_wrap hd hfb
      rw [hmod, getDinode_putDinode d (Nat.mod_lt _ (by decide))]
      exact ⟨by simpa only [haddr] using hd.direct, by simpa only [haddr] using hd.indirect⟩
    · rw [getDinode_putDinode_of_ne d hmod, ← he]
      exact h.inodes inum' hi'
  · intro hI
    have := (h.range _ hI).1
    omega

open Prog

abbrev Any : String → Prop := fun _ => True

theorem wp_rsect {sec : ℕ} {Q : Block → Mkfs → Prop} (h : sec < s.nsect → Q (s.img sec) s) :
    wp (rsect sec) s Q Any := by
  unfold rsect
  simp only [wp_bind, wp_get]
  split_ifs with hs
  · exact wp_pure _ |>.mpr (h hs)
  · exact wp_stop _ |>.mpr trivial

theorem wp_assert {p : Prop} [Decidable p] {Q : Unit → Mkfs → Prop} (h : p → Q () s) :
    wp (assert p) s Q Any := by
  unfold assert
  split_ifs with hp
  · exact wp_pure _ |>.mpr (h hp)
  · exact wp_stop _ |>.mpr trivial

theorem wp_wsect (sec : ℕ) (buf : Block) {Q : Unit → Mkfs → Prop} (h : Q () (written s sec buf)) :
    wp (wsect sec buf) s Q Any := wp_modify.mpr h

theorem wp_takeBlock {Q : ℕ → Mkfs → Prop} (h : Q s.freeblock (taken s)) :
    wp takeBlock s Q Any := by
  unfold takeBlock
  simp only [wp_bind, wp_get, wp_modify, wp_pure]
  exact h

def Good (n : ℕ) (s : Mkfs) (d : Dinode) : Prop :=
  ∃ I, Inv I s ∧ DinOk I s.freeblock d ∧ s.freeblock ≤ 1024 ∧ s.freeinode = n

theorem DinOk.setDirect {d : Dinode} {fb k b : ℕ} (h : DinOk I fb d) (hk : k < NDIRECT)
    (hb : IsData I fb b) : DinOk I fb (d.setAddr k b) := by
  constructor
  · intro k' hk'
    rw [Dinode.addr_setAddr d b (by omega)]
    split_ifs
    · exact Or.inr hb
    · exact h.direct k' hk'
  · rw [Dinode.addr_setAddr d b (by omega), if_neg (by omega)]
    exact h.indirect

theorem DinOk.setIndirect {d : Dinode} {fb b : ℕ} (h : DinOk I fb d) (hb : b ∈ I) :
    DinOk I fb (d.setAddr NDIRECT b) := by
  constructor
  · intro k hk
    rw [Dinode.addr_setAddr d b (by omega), if_neg (by omega)]
    exact h.direct k hk
  · rw [Dinode.addr_setAddr d b (by omega), if_pos rfl]
    exact Or.inr hb

theorem blockFor_entry (h : Inv I s) {d : Dinode} (hd : DinOk I s.freeblock d)
    (hne : d.addr NDIRECT ≠ 0) (hfb : s.freeblock ≤ 1024) {j : ℕ} (hj : j < NINDIRECT)
    (hx : d.addr NDIRECT < 1024) :
    wp (if (s.img (d.addr NDIRECT)).word (4 * j) = 0 then do
        let b ← takeBlock
        wsect (d.addr NDIRECT) ((s.img (d.addr NDIRECT)).setWord (4 * j) b)
        return (d, b)
      else return (d, (s.img (d.addr NDIRECT)).word (4 * j))) s
      (fun r t => ∃ I', Inv I' t ∧ DinOk I' t.freeblock r.1 ∧ IsData I' t.freeblock r.2 ∧
        (t.freeblock ≤ 1024 ∨ t.freeblock = r.2 + 1) ∧ t.freeinode = s.freeinode) Any := by
  have hI : d.addr NDIRECT ∈ I := hd.indirect.resolve_left hne
  split_ifs with hw
  · simp only [wp_bind, wp_pure]
    apply wp_takeBlock
    apply wp_wsect
    have hdata : IsData I (taken s).freeblock s.freeblock :=
      ⟨h.lo, Nat.lt_succ_self _, fun hb => lt_irrefl _ (h.range _ hb).2⟩
    refine ⟨I, ?_, hd.mono (Nat.le_succ _), hdata, Or.inr rfl, rfl⟩
    exact h.taken.writeEntry hI hx hdata (by omega) hj
  · have hdata := (h.words _ hI j hj).resolve_left hw
    exact wp_pure _ |>.mpr ⟨I, h, hd, hdata, Or.inl hfb, rfl⟩

/-- `blockFor` yields a data block that is in nobody's indirect block. -/
theorem blockFor_spec (h : Inv I s) {d : Dinode} (hd : DinOk I s.freeblock d)
    (hfb : s.freeblock ≤ 1024) {fbn : ℕ} (hfbn : fbn < MAXFILE) :
    wp (blockFor d fbn) s
      (fun r t => ∃ I', Inv I' t ∧ DinOk I' t.freeblock r.1 ∧ IsData I' t.freeblock r.2 ∧
        (t.freeblock ≤ 1024 ∨ t.freeblock = r.2 + 1) ∧ t.freeinode = s.freeinode) Any := by
  have hdata : IsData I (taken s).freeblock s.freeblock :=
    ⟨h.lo, Nat.lt_succ_self _, fun hb => lt_irrefl _ (h.range _ hb).2⟩
  have hj : fbn - NDIRECT < NINDIRECT := by
    have hm : fbn < 140 := hfbn
    have : NINDIRECT = 128 := rfl
    have : NDIRECT = 12 := rfl
    omega
  unfold blockFor
  split_ifs with hlt h0 h0
  · simp only [wp_bind, wp_pure]
    apply wp_takeBlock
    exact ⟨I, h.taken, (hd.mono (Nat.le_succ _)).setDirect hlt hdata, hdata, Or.inr rfl, rfl⟩
  · exact wp_pure _ |>.mpr ⟨I, h, hd, (hd.direct fbn hlt).resolve_left h0, Or.inl hfb, rfl⟩
  · simp only [wp_bind]
    apply wp_takeBlock
    simp only [wp_pure]
    apply wp_rsect
    intro hs
    have haddr : (d.setAddr NDIRECT s.freeblock).addr NDIRECT = s.freeblock := by
      rw [Dinode.addr_setAddr _ _ (by omega), if_pos rfl]
    have hns : (taken s).nsect = 1024 := h.nsect
    rw [hns, haddr] at hs
    have hlo := h.lo
    exact blockFor_entry h.takenIndirect (hd.insert.setIndirect (Or.inl rfl)) (by rw [haddr]; omega)
      hs hj (by rw [haddr]; exact hs)
  · simp only [wp_bind, wp_pure]
    apply wp_rsect
    intro hs
    rw [h.nsect] at hs
    exact blockFor_entry h hd h0 hfb hj hs

theorem iappendLoop_spec {n fuel : ℕ} {d : Dinode} {off : ℕ} {p : List UInt8} (h : Good n s d) :
    wp (iappendLoop fuel d off p) s (fun r t => Good n t r.1) Any := by
  induction fuel generalizing s d off p with
  | zero => exact wp_pure _ |>.mpr h
  | succ fuel ih =>
    unfold iappendLoop
    split_ifs with hp
    · simp only [wp_bind]
      apply wp_assert
      intro hfbn
      obtain ⟨I, hI, hd, hfb, hn⟩ := h
      refine wp_post (blockFor_spec hI hd hfb hfbn) ?_
      rintro ⟨d', x⟩ t ⟨I', hI', hd', hx, hroom, hn'⟩
      dsimp only
      apply wp_rsect
      intro hs
      apply wp_wsect
      have hx' : x < 1024 := hI'.nsect ▸ hs
      apply ih
      refine ⟨I', hI'.writeData hx hx' _, hd', ?_, hn'.trans hn⟩
      show t.freeblock ≤ 1024
      dsimp only at hroom
      omega
    · exact wp_pure _ |>.mpr h

def Ok (n : ℕ) (s : Mkfs) : Prop := ∃ I, Inv I s ∧ s.freeblock ≤ 1024 ∧ s.freeinode = n

theorem winode_spec {n inum : ℕ} {d : Dinode} (h : Good n s d) (hi : inum < 208) :
    wp (winode inum d) s (fun _ t => Ok n t) Any := by
  obtain ⟨I, hI, hd, hfb, hn⟩ := h
  unfold winode
  simp only [wp_bind]
  apply wp_rsect
  intro _
  apply wp_wsect
  exact ⟨I, hI.writeInode hi hd (by omega), hfb, hn⟩

theorem rinode_spec {n inum : ℕ} (h : Ok n s) (hi : inum < 208) :
    wp (rinode inum) s (fun d t => t = s ∧ Good n s d) Any := by
  obtain ⟨I, hI, hfb, hn⟩ := h
  unfold rinode
  simp only [wp_bind, wp_pure]
  apply wp_rsect
  intro _
  exact ⟨rfl, I, hI, hI.inodes inum hi, hfb, hn⟩

theorem Good.congr {n : ℕ} {d d' : Dinode} (h : Good n s d) (hd : d'.addrs = d.addrs) :
    Good n s d' := by
  obtain ⟨I, hI, hok, hrest⟩ := h
  have haddr : ∀ k, d'.addr k = d.addr k := by
    intro k
    simp [Dinode.addr, hd]
  exact ⟨I, hI, ⟨by simpa only [haddr] using hok.direct, by simpa only [haddr] using hok.indirect⟩,
    hrest⟩

theorem iappend_spec {n inum : ℕ} {p : List UInt8} (h : Ok n s) (hi : inum < 208) :
    wp (iappend inum p) s (fun _ t => Ok n t) Any := by
  unfold iappend
  refine wp_seq (rinode_spec h hi) ?_
  rintro d t ⟨rfl, hd⟩
  refine wp_seq (iappendLoop_spec hd) ?_
  rintro ⟨d', off⟩ u hu
  exact winode_spec (hu.congr rfl) hi

theorem ialloc_spec {n type : ℕ} (h : Ok n s) (hn : n < 208) :
    wp (ialloc type) s (fun inum t => inum = n ∧ Ok (n + 1) t) Any := by
  obtain ⟨I, hI, hfb, hfi⟩ := h
  have hgood : Good (n + 1) { s with freeinode := s.freeinode + 1 }
      { Dinode.zero with type := type, nlink := 1 } := by
    refine ⟨I, ⟨hI.sb, hI.nsect, hI.lo, hI.used, hI.given, hI.fresh, hI.range, hI.inodes,
      hI.words⟩, ?_, hfb, congrArg (· + 1) hfi⟩
    constructor
    · intro k _
      left
      simp [Dinode.addr, Dinode.zero]
    · left
      simp [Dinode.addr, Dinode.zero]
  unfold ialloc
  simp only [wp_bind, wp_get, wp_modify, wp_pure]
  refine wp_post (winode_spec hgood (by omega)) ?_
  exact fun _ t ht => ⟨hfi, ht⟩

theorem copyFile_spec {n inum fuel : ℕ} {data : List UInt8} (h : Ok n s) (hi : inum < 208) :
    wp (copyFile inum fuel data) s (fun _ t => Ok n t) Any := by
  induction fuel generalizing s data with
  | zero => exact wp_pure _ |>.mpr h
  | succ fuel ih =>
    unfold copyFile
    split_ifs
    · exact wp_seq (iappend_spec h hi) fun _ t ht => ih ht
    · exact wp_pure _ |>.mpr h

theorem addFile_spec {n rootino : ℕ} {name data : List UInt8} (h : Ok n s) (hn : n < 208)
    (hr : rootino < 208) : wp (addFile rootino name data) s (fun _ t => Ok (n + 1) t) Any := by
  unfold addFile
  simp only [wp_bind]
  apply wp_assert
  intro _
  refine wp_post (ialloc_spec h hn) ?_
  rintro inum t ⟨rfl, ht⟩
  refine wp_post (iappend_spec ht hr) ?_
  exact fun _ u hu => copyFile_spec hu hn

theorem addFiles_spec {n rootino : ℕ} {files : List (List UInt8 × List UInt8)} (h : Ok n s)
    (hn : n + files.length ≤ 208) (hr : rootino < 208) :
    wp (addFiles rootino files) s (fun _ t => ∃ m, Ok m t) Any := by
  induction files generalizing s n with
  | nil => exact wp_pure _ |>.mpr ⟨n, h⟩
  | cons f files ih =>
    simp only [List.length_cons] at hn
    unfold addFiles
    refine wp_seq (addFile_spec h (by omega) hr) ?_
    exact fun _ t ht => ih ht (by omega)

theorem wsectAll_eq (n i : ℕ) {s : Mkfs} (h : s.img = fun _ => Bytes.zero) :
    wsectAll n i s = .ok () { s with nsect := if n = 0 then s.nsect else max s.nsect (i + n) } := by
  induction n generalizing i s with
  | zero => rfl
  | succ n ih =>
    have himg : Function.update s.img i Bytes.zero = fun _ => Bytes.zero := by
      rw [h]
      exact Function.update_eq_self i _
    have hstep : wsectAll (n + 1) i s =
        wsectAll n (i + 1) { s with img := fun _ => Bytes.zero, nsect := max s.nsect (i + 1) } := by
      show wsectAll n (i + 1) { s with
        img := Function.update s.img i Bytes.zero, nsect := max s.nsect (i + 1) } = _
      rw [himg]
    rw [hstep, ih (i + 1) rfl]
    cases s with
    | mk img nsect freeblock usedblocks freeinode given =>
      dsimp only at h
      subst h
      simp only [Outcome.ok.injEq, mk.injEq, true_and, Nat.succ_ne_zero, if_false, and_true]
      split_ifs with hn
      · rw [hn]
      · omega

theorem getSb_sbBlock : getSb sbBlock = mkfsSb := by
  have hn : 0 + 4 * [size, nblocks, ninodes, nlog].length ≤ BSIZE := by decide
  have h0 := Bytes.word_setWords (Bytes.zero : Block) hn (i := 0) (by decide)
  have h1 := Bytes.word_setWords (Bytes.zero : Block) hn (i := 1) (by decide)
  have h2 := Bytes.word_setWords (Bytes.zero : Block) hn (i := 2) (by decide)
  have h3 := Bytes.word_setWords (Bytes.zero : Block) hn (i := 3) (by decide)
  rw [getSb, Superblock.mk.injEq]
  exact ⟨h0, h1, h2, h3⟩

theorem inv_formatted :
    Ok 1 (written { start with nsect := 1024 } 1 sbBlock) := by
  have hzero : ∀ b, b ≠ 1 →
      (written { start with nsect := 1024 } 1 sbBlock).img b = Bytes.zero := by
    intro b hb
    simp [written, start, hb]
  refine ⟨∅, ?_, by decide, rfl⟩
  constructor
  · simp [written]
  · rfl
  · decide
  · rfl
  · intro b
    simp only [written, start, List.not_mem_nil, false_iff, not_and, not_lt]
    intro hb
    exact hb
  · intro b hb
    apply hzero
    rintro rfl
    exact absurd hb (by decide)
  · simp
  · intro inum hi
    have := i2b_lt hi
    rw [hzero _ (by omega), getDinode_zero]
    constructor
    · intro k _
      left
      simp [Dinode.addr, Dinode.zero]
    · left
      simp [Dinode.addr, Dinode.zero]
  · simp

theorem bit_bitmap {u : ℕ} (hu : u ≤ 8 * BSIZE) (j : ℕ) : (bitmap u).bit j = decide (j < u) := by
  unfold bitmap
  induction u with
  | zero => simp
  | succ u ih =>
    rw [List.range_succ, List.foldl_append, List.foldl_cons, List.foldl_nil,
      Bytes.bit_setBit (by omega), ih (by omega)]
    by_cases hj : j = u
    · simp [hj]
    · rw [if_neg hj, decide_eq_decide]
      omega

/-- A finished image: its super block, its bitmap, and the blocks given to files. -/
structure Built (s : Mkfs) : Prop where
  sb : getSb (s.img 1) = mkfsSb
  lo : 29 ≤ s.usedblocks
  bits : ∀ b < BPB, used mkfsSb s.img b = decide (b < s.usedblocks)
  given : ∀ b, b ∈ s.given ↔ 29 ≤ b ∧ b < s.usedblocks

theorem main_spec {files : List (List UInt8 × List UInt8)} (hf : files.length ≤ 206) :
    wp (main files) start (fun _ t => Built t) Any := by
  have hn : nblocks + start.usedblocks + nlog = 1024 := by decide
  have hall : wsectAll 1024 0 start = .ok () { start with nsect := 1024 } := by
    rw [wsectAll_eq 1024 0 rfl, if_neg (by decide)]
    rfl
  unfold main
  simp only [wp_bind, wp_get, hn]
  generalize wsectAll 1024 0 = clear at hall ⊢
  refine wp_assert fun _ => ?_
  rw [wp_of_eq hall]
  apply wp_wsect
  refine wp_post (ialloc_spec inv_formatted (by decide)) ?_
  rintro inum t1 ⟨rfl, h1⟩
  apply wp_assert
  intro _
  refine wp_post (iappend_spec h1 (by decide)) fun _ t2 h2 => ?_
  refine wp_post (iappend_spec h2 (by decide)) fun _ t3 h3 => ?_
  refine wp_post (addFiles_spec h3 (by omega) (by decide)) fun _ t4 h4 => ?_
  obtain ⟨m, h4⟩ := h4
  refine wp_post (rinode_spec h4 (by decide)) ?_
  rintro d t5 ⟨rfl, h5⟩
  refine wp_post (winode_spec (h5.congr rfl) (by decide)) fun _ t6 h6 => ?_
  obtain ⟨I, hI, -, -⟩ := h6
  unfold balloc
  simp only [wp_bind]
  apply wp_assert
  intro hu
  apply wp_wsect
  have hsect : (written t6 (ninodes / IPB + 3) (bitmap t6.usedblocks)).img 28 =
      bitmap t6.usedblocks := by
    simp [written, ninodes, IPB, BSIZE]
  constructor
  · have h1 : (written t6 (ninodes / IPB + 3) (bitmap t6.usedblocks)).img 1 = t6.img 1 := by
      simp [written, ninodes, IPB, BSIZE]
    rw [h1, hI.sb, getSb_sbBlock]
  · show 29 ≤ t6.usedblocks
    rw [hI.used]
    exact hI.lo
  · intro b hb
    have hb' : b < 4096 := hb
    have hblk : BBLOCK b mkfsSb.ninodes = 28 := by
      have hn : mkfsSb.ninodes = 200 := rfl
      rw [BBLOCK_eq, hn]
      omega
    rw [used, hblk, hsect, bit_bitmap (by unfold BSIZE; omega), Nat.mod_eq_of_lt hb]
    rfl
  · intro b
    have hg := hI.given b
    rw [← hI.used] at hg
    exact hg

/-- Given no more files than its inode blocks have room for, `mkfs` builds an image whose
bitmap marks exactly the blocks before the data area and those it gave to files. -/
theorem main_built {files : List (List UInt8 × List UInt8)} (hf : files.length ≤ 206) {s : Mkfs}
    (h : main files start = .ok () s) : Built s := by
  exact wp_ok (fun _ t => Built t) h (main_spec hf)

end Xv6.Mkfs
