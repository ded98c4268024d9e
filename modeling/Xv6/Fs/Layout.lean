import Xv6.Param
import Xv6.Lib.Bitmap
import Xv6.Lib.Record
import Mathlib.Data.List.GetD
import Mathlib.Data.List.OfFn

/-! The on-disk format of `fs.h`: super block, inodes, bitmap and directory entries. -/
namespace Xv6

def NDIRECT : ℕ := 12

def NINDIRECT : ℕ := BSIZE / 4

def MAXFILE : ℕ := NDIRECT + NINDIRECT

/-- Inodes per block. -/
def IPB : ℕ := BSIZE / 64

/-- Bitmap bits per block. -/
def BPB : ℕ := BSIZE * 8

def ROOTINO : ℕ := 1

def T_DIR : ℕ := 1

def T_FILE : ℕ := 2

def T_DEV : ℕ := 3

def DIRSIZ : ℕ := 14

/-- Block containing inode `i`. -/
def IBLOCK (i : ℕ) : ℕ := i / IPB + 2

/-- Block containing the bit for block `b`. -/
def BBLOCK (b ninodes : ℕ) : ℕ := b / BPB + ninodes / IPB + 3

/-- The super block as `readsb` copies it out of block 1. -/
def getSb (b : Block) : Superblock := ⟨b.word 0, b.word 4, b.word 8, b.word 12⟩

/-- `struct dinode`. The `short` fields are kept as 16-bit patterns. -/
structure Dinode where
  type : ℕ
  major : ℕ
  minor : ℕ
  nlink : ℕ
  size : ℕ
  addrs : Fin (NDIRECT + 1) → ℕ

namespace Dinode

def zero : Dinode := ⟨0, 0, 0, 0, 0, fun _ => 0⟩

def addr (d : Dinode) (k : ℕ) : ℕ := if h : k < NDIRECT + 1 then d.addrs ⟨k, h⟩ else 0

def setAddr (d : Dinode) (k x : ℕ) : Dinode :=
  { d with addrs := fun i => if i.val = k then x else d.addrs i }

def toFields (d : Dinode) : List (ℕ × ℕ) :=
  [(2, d.type), (2, d.major), (2, d.minor), (2, d.nlink), (4, d.size)] ++
    (List.ofFn d.addrs).map fun a => (4, a)

def widths : List ℕ := [2, 2, 2, 2, 4] ++ List.replicate (NDIRECT + 1) 4

def ofFields (xs : List ℕ) : Dinode where
  type := xs.getD 0 0
  major := xs.getD 1 0
  minor := xs.getD 2 0
  nlink := xs.getD 3 0
  size := xs.getD 4 0
  addrs i := xs.getD (5 + i.val) 0

structure Fits (d : Dinode) : Prop where
  type : d.type < 2 ^ 16
  major : d.major < 2 ^ 16
  minor : d.minor < 2 ^ 16
  nlink : d.nlink < 2 ^ 16
  size : d.size < 2 ^ 32
  addrs : ∀ i, d.addrs i < 2 ^ 32

def wrap (d : Dinode) : Dinode where
  type := d.type % 2 ^ 16
  major := d.major % 2 ^ 16
  minor := d.minor % 2 ^ 16
  nlink := d.nlink % 2 ^ 16
  size := d.size % 2 ^ 32
  addrs i := d.addrs i % 2 ^ 32

theorem wrap_of_fits {d : Dinode} (h : d.Fits) : d.wrap = d := by
  cases d with
  | mk type major minor nlink size addrs =>
    simp only [wrap, mk.injEq]
    exact ⟨Nat.mod_eq_of_lt h.type, Nat.mod_eq_of_lt h.major, Nat.mod_eq_of_lt h.minor,
      Nat.mod_eq_of_lt h.nlink, Nat.mod_eq_of_lt h.size,
      funext fun i => Nat.mod_eq_of_lt (h.addrs i)⟩

theorem addr_wrap (d : Dinode) (k : ℕ) : d.wrap.addr k = d.addr k % 2 ^ 32 := by
  unfold addr wrap
  split_ifs <;> rfl

theorem addr_setAddr {k j : ℕ} (d : Dinode) (x : ℕ) (hk : k < NDIRECT + 1) :
    (d.setAddr k x).addr j = if j = k then x else d.addr j := by
  unfold addr setAddr
  split_ifs with h1 h2 h2
  · exact if_pos h2
  · exact if_neg h2
  · omega
  · rfl

theorem ofFields_toFields (d : Dinode) :
    ofFields (d.toFields.map fun f => f.2 % 256 ^ f.1) = d.wrap := by
  have haddrs : ∀ i : Fin (NDIRECT + 1),
      ((d.toFields.map fun f => f.2 % 256 ^ f.1).getD (5 + i.val) 0) = d.addrs i % 2 ^ 32 := by
    intro i
    simp only [toFields, List.map_append, List.map_map]
    rw [List.getD_append_right _ _ _ _ (by simp)]
    have hsub : 5 + i.val - ([(2, d.type), (2, d.major), (2, d.minor), (2, d.nlink),
        (4, d.size)].map fun f : ℕ × ℕ => f.2 % 256 ^ f.1).length = i.val := by simp
    rw [hsub, List.getD_eq_getElem _ _ (by rw [List.length_map, List.length_ofFn]; exact i.isLt)]
    simp only [List.getElem_map, List.getElem_ofFn, Function.comp_apply, Fin.eta]
    rfl
  simp only [ofFields, wrap, mk.injEq]
  exact ⟨rfl, rfl, rfl, rfl, rfl, funext haddrs⟩

end Dinode

/-- `((struct dinode*)bp->data)[k]`. -/
def getDinode (b : Block) (k : ℕ) : Dinode :=
  Dinode.ofFields (Record.fields Dinode.widths (b.slice (64 * k) 64))

def putDinode (b : Block) (k : ℕ) (d : Dinode) : Block :=
  b.write (64 * k) (Record.put d.toFields)

theorem map_fst_toFields (d : Dinode) : d.toFields.map Prod.fst = Dinode.widths := by
  have hrep : (List.ofFn d.addrs).map (fun _ => 4) = List.replicate (NDIRECT + 1) 4 := by
    rw [List.map_const', List.length_ofFn]
  simp only [Dinode.toFields, Dinode.widths, List.map_append, List.map_map, Function.comp_def, hrep]
  rfl

theorem length_put_toFields (d : Dinode) : (Record.put d.toFields).length = 64 := by
  rw [Record.length_put, map_fst_toFields]
  rfl

theorem getDinode_putDinode {b : Block} {k : ℕ} (d : Dinode) (hk : k < IPB) :
    getDinode (putDinode b k d) k = d.wrap := by
  have hk' : k < 8 := hk
  have hn : 64 * k + 64 ≤ BSIZE := by unfold BSIZE; omega
  rw [getDinode, putDinode, Bytes.slice_write_same (length_put_toFields d) hn,
    ← map_fst_toFields d, Record.fields_put, Dinode.ofFields_toFields]

theorem getDinode_putDinode_of_ne {b : Block} {k k' : ℕ} (d : Dinode) (h : k' ≠ k) :
    getDinode (putDinode b k d) k' = getDinode b k' := by
  rw [getDinode, putDinode, Bytes.slice_write_disjoint]
  · rfl
  · rw [length_put_toFields]
    omega

theorem getDinode_zero (k : ℕ) : getDinode Bytes.zero k = Dinode.zero := by
  have hslice : (Bytes.zero : Block).slice (64 * k) 64 = List.replicate 64 0 := by
    simp [Bytes.slice, List.map_const']
  rw [getDinode, hslice, Record.fields_replicate_zero]
  have hzero : ∀ i, (Dinode.widths.map fun _ => 0).getD i 0 = 0 := by
    intro i
    by_cases hi : i < (Dinode.widths.map fun _ => 0).length
    · rw [List.getD_eq_getElem _ _ hi, List.getElem_map]
    · rw [List.getD_eq_default _ _ (by omega)]
  simp only [Dinode.ofFields, Dinode.zero, hzero]

theorem getDinode_fits (b : Block) (k : ℕ) : (getDinode b k).Fits := by
  have hlt := fun i (hi : i < 18) =>
    Record.fields_lt Dinode.widths (b.slice (64 * k) 64) (i := i) (by
      simp [Dinode.widths, NDIRECT]
      exact hi)
  constructor
  · exact hlt 0 (by decide)
  · exact hlt 1 (by decide)
  · exact hlt 2 (by decide)
  · exact hlt 3 (by decide)
  · exact hlt 4 (by decide)
  · intro i
    have hi : i.val < 13 := i.isLt
    have h := hlt (5 + i.val) (by omega)
    have hw : Dinode.widths.getD (5 + i.val) 0 = 4 := by
      unfold Dinode.widths
      rw [List.getD_append_right _ _ _ _ (by simp)]
      have hsub : 5 + i.val - ([2, 2, 2, 2, 4] : List ℕ).length = i.val := by simp
      rw [hsub, List.getD_eq_getElem _ _ (by simp [NDIRECT]; exact hi), List.getElem_replicate]
    rw [hw] at h
    exact h

end Xv6
