import Xv6.Fs.Bmap

/-! The contents of an inode as a sequence of bytes, and how `readi` delivers them. -/
namespace Xv6
open Prog

/-- The number of blocks that hold `n` bytes. -/
def nblk (n : ℕ) : ℕ := (n + BSIZE - 1) / BSIZE

def byteAt (d : Disk) (D : Dinode) (p : ℕ) : UInt8 :=
  (d (blockAt d D (p / BSIZE))).get (p % BSIZE)

def bytesFrom (d : Disk) (D : Dinode) (off n : ℕ) : List UInt8 :=
  (List.range n).map fun k => byteAt d D (off + k)

/-- The bytes of an inode, as many as its size says. -/
def contents (d : Disk) (D : Dinode) : List UInt8 := bytesFrom d D 0 D.size

theorem nblk_eq (n : ℕ) : nblk n = (n + 511) / 512 := by
  rw [nblk, BSIZE_eq]
  omega

theorem lt_nblk {off n : ℕ} (h : off < n) : off / BSIZE < nblk n := by
  rw [nblk_eq, BSIZE_eq]
  omega

theorem le_nblk (n : ℕ) : n ≤ BSIZE * nblk n := by
  rw [nblk_eq, BSIZE_eq]
  omega

theorem nblk_mono {a b : ℕ} (h : a ≤ b) : nblk a ≤ nblk b := by
  rw [nblk_eq, nblk_eq]
  omega

@[simp] theorem length_bytesFrom (d : Disk) (D : Dinode) (off n : ℕ) :
    (bytesFrom d D off n).length = n := by
  simp [bytesFrom]

@[simp] theorem length_contents (d : Disk) (D : Dinode) : (contents d D).length = D.size :=
  length_bytesFrom d D 0 D.size

theorem getElem_bytesFrom {d : Disk} {D : Dinode} {off n k : ℕ}
    (hk : k < (bytesFrom d D off n).length) : (bytesFrom d D off n)[k] = byteAt d D (off + k) := by
  simp [bytesFrom]

theorem getElem_contents {d : Disk} {D : Dinode} {k : ℕ} (hk : k < (contents d D).length) :
    (contents d D)[k] = byteAt d D k := by
  have h : (contents d D)[k] = byteAt d D (0 + k) := getElem_bytesFrom hk
  rwa [zero_add] at h

theorem bytesFrom_append (d : Disk) (D : Dinode) (off m n : ℕ) :
    bytesFrom d D off (m + n) = bytesFrom d D off m ++ bytesFrom d D (off + m) n := by
  simp [bytesFrom, List.range_add, Function.comp_def, Nat.add_assoc]

theorem slice_block (d : Disk) (D : Dinode) {off n : ℕ} (hn : n ≤ BSIZE - off % BSIZE) :
    (d (blockAt d D (off / BSIZE))).slice (off % BSIZE) n = bytesFrom d D off n := by
  have h512 : BSIZE = 512 := rfl
  unfold Bytes.slice bytesFrom byteAt
  apply List.map_congr_left
  intro k hk
  have hk' := List.mem_range.mp hk
  have hdiv : (off + k) / BSIZE = off / BSIZE := by
    rw [h512] at hn ⊢
    omega
  have hmod : (off + k) % BSIZE = off % BSIZE + k := by
    rw [h512] at hn ⊢
    omega
  rw [hdiv, hmod]

theorem contents_slice (d : Disk) (D : Dinode) {off n : ℕ} (h : off + n ≤ D.size) :
    bytesFrom d D off n = ((contents d D).drop off).take n := by
  apply List.ext_getElem
  · simp
    omega
  · intro k h1 h2
    rw [getElem_bytesFrom, List.getElem_take, List.getElem_drop, getElem_contents]

section readi

variable {sb : Superblock} {s : Fs} {ip : InodeId} {i c : ℕ} {f : ℕ → Dinode} {m : ℕ → ℕ}

theorem bmap_below {E : Stop → Prop} (h : Holds sb s ip i f m) (hc : m i = nslots c) {bn : ℕ}
    (hbn : bn < c) :
    wp (bmap ip bn) s (fun b t => b = blockAt s.disk (s.inode ip).din bn ∧ t = s) E := by
  have hmax : bn < MAXFILE := by
    have hle := h.layout.le_MAXFILE h.lt
    rw [hc, nslots, MAXFILE_eq, NDIRECT_eq] at hle
    rw [MAXFILE_eq]
    split_ifs at hle <;> omega
  refine wp_mono (bmap_spec h hc (le_of_lt hbn) hmax) ?_ ?_
  · intro b t hb
    obtain rfl := hb.same hbn
    exact ⟨hb.block.symm, rfl⟩
  · rintro e ⟨-, hlt⟩
    rw [show max c (bn + 1) = c by omega] at hlt
    omega

theorem readiLoop_spec {E : Stop → Prop} (h : Holds sb s ip i f m) (hc : m i = nslots c)
    {fuel off n : ℕ} (hf : n ≤ fuel) (hn : off + n ≤ BSIZE * c) :
    wp (readiLoop ip fuel off n) s
      (fun bytes t => bytes = bytesFrom s.disk (s.inode ip).din off n ∧ t = s) E := by
  induction fuel generalizing off n with
  | zero =>
    obtain rfl : n = 0 := by omega
    rw [readiLoop, wp_pure]
    exact ⟨rfl, rfl⟩
  | succ fuel ih =>
    rw [readiLoop]
    split_ifs with hpos
    · have h512 : BSIZE = 512 := rfl
      have hbn : off / BSIZE < c := Nat.div_lt_of_lt_mul (by omega)
      have hm : min n (BSIZE - off % BSIZE) ≤ BSIZE - off % BSIZE := by omega
      have hmpos : 0 < min n (BSIZE - off % BSIZE) := by
        have := Nat.mod_lt off (show 0 < BSIZE by decide)
        omega
      simp only [wp_bind, wp_inodeAt, h.dev]
      refine wp_post (bmap_below h hc hbn) ?_
      rintro b t ⟨rfl, rfl⟩
      rw [wp_bread]
      refine wp_post (ih (by omega) (by omega)) ?_
      rintro rest t ⟨rfl, rfl⟩
      rw [wp_pure, slice_block _ _ hm, ← bytesFrom_append]
      refine ⟨?_, rfl⟩
      congr 1
      omega
    · obtain rfl : n = 0 := by omega
      rw [wp_pure]
      exact ⟨rfl, rfl⟩

theorem wraps_iff {off n : ℕ} (hoff : off < 2 ^ 32) (hn : n < 2 ^ 32) :
    (off + n) % 2 ^ 32 < off ↔ 2 ^ 32 ≤ off + n := by
  omega

/-- `readi` delivers the bytes of the file and changes nothing. -/
theorem readi_spec {E : Stop → Prop} (devsw : Devsw) (h : Holds sb s ip i f m)
    (hc : m i = nslots (nblk (s.inode ip).din.size)) (hdev : (s.inode ip).din.type ≠ T_DEV)
    (off n : ℕ) :
    wp (readi devsw ip off n) s
      (fun r t => t = s ∧
        if off > (s.inode ip).din.size ∨ (off + n) % 2 ^ 32 < off then r = (-1, [])
        else r = (↑(min n ((s.inode ip).din.size - off)),
          bytesFrom s.disk (s.inode ip).din off (min n ((s.inode ip).din.size - off)))) E := by
  unfold readi
  simp only [wp_bind, wp_inodeAt]
  rw [if_neg hdev]
  by_cases hbad : off > (s.inode ip).din.size ∨ (off + n) % 2 ^ 32 < off
  · simp only [if_pos hbad, wp_pure, and_self]
  · simp only [if_neg hbad, wp_bind]
    have hmin : (if off + n > (s.inode ip).din.size then (s.inode ip).din.size - off else n) =
        min n ((s.inode ip).din.size - off) := by
      split_ifs <;> omega
    rw [hmin]
    have hle := le_nblk (s.inode ip).din.size
    refine wp_post (readiLoop_spec h hc le_rfl (by omega)) ?_
    rintro bytes t ⟨rfl, rfl⟩
    rw [wp_pure]
    exact ⟨rfl, rfl⟩

end readi

end Xv6
