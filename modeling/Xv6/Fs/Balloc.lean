import Xv6.Fs.Alloc
import Xv6.Mkfs.Built

/-! `balloc` and `bfree` on a bitmap of any number of blocks, and `balloc` called by several
processes at once. -/
namespace Xv6

/-- `BBLOCK(b, ninodes)` for the `int` counter of `balloc`. -/
def BBLOCK32 (b : BitVec 32) (ninodes : ℕ) : ℕ :=
  ((b.toInt.tdiv BPB + (ninodes / IPB + 3 : ℕ)) % 2 ^ 32).toNat

/-- The inner loop of `balloc`, where `b + bi` is an `int`. -/
def findClear32 (bp : Block) (size : ℕ) (b : BitVec 32) : ℕ → ℕ → Option ℕ
  | 0, _ => none
  | fuel + 1, bi =>
    if bi < BPB ∧ (b + BitVec.ofNat 32 bi).toNat < size then
      if bp.bit bi = false then some bi else findClear32 bp size b fuel (bi + 1)
    else none

def ballocFrom32 (sb : Superblock) (dev : ℕ) : ℕ → BitVec 32 → FsM ℕ
  | 0, _ => panic "balloc: out of blocks"
  | fuel + 1, b =>
    if b.toNat < sb.size then do
      let bp ← bread dev (BBLOCK32 b sb.ninodes)
      match findClear32 bp sb.size b (BPB + 1) 0 with
      | some bi =>
        logWrite (BBLOCK32 b sb.ninodes) (bp.setBit bi)
        bzero dev (b + BitVec.ofNat 32 bi).toNat
        return (b + BitVec.ofNat 32 bi).toNat
      | none => ballocFrom32 sb dev fuel (b + BitVec.ofNat 32 BPB)
    else panic "balloc: out of blocks"

/-- `balloc` with the `int` arithmetic of its counters. -/
def balloc32 (dev : ℕ) : FsM ℕ := do
  let sb ← readsb dev
  ballocFrom32 sb dev (sb.size / BPB + 2) 0

/-- The block holds bits for blocks below `sb.size`. -/
def IsBitmap (sb : Superblock) (x : ℕ) : Prop := ∃ b < sb.size, x = BBLOCK b sb.ninodes

/-- The super block and the blocks of the bitmap are marked as in use. -/
def MetaUsed (sb : Superblock) (d : Disk) : Prop :=
  ∀ x < sb.size, x = 1 ∨ IsBitmap sb x → used sb d x = true

structure Allocated (sb : Superblock) (s : Fs) (t : ℕ) (u : Fs) : Prop where
  lt : t < sb.size
  clear : used sb s.disk t = false
  least : ∀ b < t, used sb s.disk b = true
  bits : ∀ b, IsBitmap sb (BBLOCK b sb.ninodes) →
    used sb u.disk b = if b = t then true else used sb s.disk b
  zeroed : u.disk t = Bytes.zero
  others : ∀ x, x ≠ t → ¬ IsBitmap sb x → u.disk x = s.disk x

structure Released (sb : Superblock) (s : Fs) (b : ℕ) (u : Fs) : Prop where
  bits : ∀ b', used sb u.disk b' = if b' = b then false else used sb s.disk b'
  others : ∀ x, x ≠ BBLOCK b sb.ninodes → u.disk x = s.disk x

theorem findClear_some {bp : Block} {size b fuel bi t : ℕ}
    (h : findClear bp size b fuel bi = some t) : t < BPB ∧ b + t < size ∧ bp.bit t = false := by
  induction fuel generalizing bi with
  | zero => cases h
  | succ fuel ih =>
    rw [findClear] at h
    split_ifs at h with hlt hbit
    · cases h
      exact ⟨hlt.1, hlt.2, hbit⟩
    · exact ih h

section int

variable {sb : Superblock}

theorem findClear32_eq (bp : Block) {size b : ℕ} (hb : b + BPB < 2 ^ 32) (fuel bi : ℕ) :
    findClear32 bp size (BitVec.ofNat 32 b) fuel bi = findClear bp size b fuel bi := by
  induction fuel generalizing bi with
  | zero => rfl
  | succ fuel ih =>
    have hcond : (bi < BPB ∧ (BitVec.ofNat 32 b + BitVec.ofNat 32 bi).toNat < size) ↔
        (bi < BPB ∧ b + bi < size) := by
      refine and_congr_right fun hbi => ?_
      rw [← BitVec.ofNat_add, BitVec.toNat_ofNat, Nat.mod_eq_of_lt (by omega)]
    rw [findClear32, findClear, ih]
    simp only [hcond]

theorem BBLOCK32_eq {b ninodes : ℕ} (hb : b < 2 ^ 31) (hn : ninodes < 2 ^ 32) :
    BBLOCK32 (BitVec.ofNat 32 b) ninodes = BBLOCK b ninodes := by
  have hint : (BitVec.ofNat 32 b).toInt = b := by
    rw [BitVec.toInt_eq_toNat_cond, BitVec.toNat_ofNat, Nat.mod_eq_of_lt (by omega),
      if_pos (by omega)]
  have hlt : b / BPB + (ninodes / IPB + 3) < 2 ^ 32 := by
    show b / 4096 + (ninodes / 8 + 3) < 2 ^ 32
    omega
  rw [BBLOCK32, hint, ← Int.ofNat_tdiv, ← Nat.cast_add]
  have hmod : ((b / BPB + (ninodes / IPB + 3) : ℕ) : ℤ) % 2 ^ 32 =
      (b / BPB + (ninodes / IPB + 3) : ℕ) := by
    exact Int.emod_eq_of_lt (Int.natCast_nonneg _) (by exact_mod_cast hlt)
  rw [hmod, Int.toNat_natCast, BBLOCK, Nat.add_assoc]

/-- Up to half the range of an `int` the counters do not overflow. -/
theorem ballocFrom32_eq (hsize : sb.size ≤ 2 ^ 31) (hn : sb.ninodes < 2 ^ 32) (dev fuel : ℕ) {b : ℕ}
    (hb : b ≤ 2 ^ 31) (hmod : b % BPB = 0) :
    ballocFrom32 sb dev fuel (BitVec.ofNat 32 b) = ballocFrom sb dev fuel b := by
  have hBPB : BPB = 4096 := rfl
  induction fuel generalizing b with
  | zero => rfl
  | succ fuel ih =>
    have htoNat : (BitVec.ofNat 32 b).toNat = b := by
      rw [BitVec.toNat_ofNat, Nat.mod_eq_of_lt (by omega)]
    rw [ballocFrom32, ballocFrom, htoNat]
    by_cases hlt : b < sb.size
    · have hroom : b + BPB ≤ 2 ^ 31 := by
        rw [hBPB] at hmod ⊢
        omega
      have hnext := ih hroom (by rw [Nat.add_mod_right, hmod])
      rw [BitVec.ofNat_add] at hnext
      rw [if_pos hlt, if_pos hlt, BBLOCK32_eq (by omega) hn]
      refine congrArg (bread dev (BBLOCK b sb.ninodes) >>= ·) (funext fun bp => ?_)
      rw [findClear32_eq bp (by omega), hnext]
      cases hfind : findClear bp sb.size b (BPB + 1) 0 with
      | none => rfl
      | some bi =>
        have hbi := (findClear_some hfind).1
        have hsum : (BitVec.ofNat 32 b + BitVec.ofNat 32 bi).toNat = b + bi := by
          rw [← BitVec.ofNat_add, BitVec.toNat_ofNat, Nat.mod_eq_of_lt (by omega)]
        dsimp only
        rw [hsum]
    · rw [if_neg hlt, if_neg hlt]

theorem balloc32_eq {s : Fs} (hsb : getSb (s.disk 1) = sb) (hsize : sb.size ≤ 2 ^ 31) :
    balloc32 ROOTDEV s = balloc ROOTDEV s := by
  have hn : sb.ninodes < 2 ^ 32 := by
    rw [← hsb]
    exact Bytes.word_lt _ _
  have hrun := ballocFrom32_eq hsize hn ROOTDEV (sb.size / BPB + 2) (Nat.zero_le _) rfl
  simp only [balloc32, balloc, bind, readsb_eq hsb]
  exact congrFun hrun s

end int

section bitmap

variable {sb : Superblock} {s u : Fs} {t b : ℕ}

theorem isBitmap_ne_one {x : ℕ} (h : IsBitmap sb x) : x ≠ 1 := by
  obtain ⟨b, -, rfl⟩ := h
  rw [BBLOCK_eq]
  omega

theorem MetaUsed.not_meta {d : Disk} (h : MetaUsed sb d) (hlt : t < sb.size)
    (hclear : used sb d t = false) : t ≠ 1 ∧ ¬ IsBitmap sb t := by
  have hne : ¬ (t = 1 ∨ IsBitmap sb t) := fun hm => by
    rw [h t hlt hm] at hclear
    cases hclear
  exact not_or.mp hne

theorem allocated_alloc (hmeta : MetaUsed sb s.disk) (hlt : t < sb.size)
    (hclear : used sb s.disk t = false) (hleast : ∀ b < t, used sb s.disk b = true) :
    Allocated sb s t (s.alloc sb t) := by
  have hnot := (hmeta.not_meta hlt hclear).2
  refine ⟨hlt, hclear, hleast, fun b hb => used_allocDisk fun heq => hnot (heq ▸ hb), ?_, ?_⟩
  · exact Function.update_self ..
  · intro x hx hmap
    have hne : x ≠ BBLOCK t sb.ninodes := fun heq => hmap ⟨t, hlt, heq⟩
    show Function.update (Function.update s.disk _ _) t _ x = _
    rw [Function.update_of_ne hx, Function.update_of_ne hne]

theorem released_free (b : ℕ) : Released sb s b (s.free sb b) := by
  refine ⟨fun b' => used_freeDisk sb s.disk b b', fun x hx => ?_⟩
  exact Function.update_of_ne hx ..

theorem Released.getSb_eq (h : Released sb s b u) (hsb : getSb (s.disk 1) = sb) :
    getSb (u.disk 1) = sb := by
  rw [h.others 1 (by rw [BBLOCK_eq]; omega), hsb]

theorem Allocated.getSb_eq (h : Allocated sb s t u) (hmeta : MetaUsed sb s.disk)
    (hsb : getSb (s.disk 1) = sb) : getSb (u.disk 1) = sb := by
  have hne := (hmeta.not_meta h.lt h.clear).1
  rw [h.others 1 hne.symm fun hmap => isBitmap_ne_one hmap rfl, hsb]

/-- `balloc` panics exactly when there is no block to return. -/
theorem balloc_allocated (hsb : getSb (s.disk 1) = sb) (hmeta : MetaUsed sb s.disk) :
    (∃ t u, balloc ROOTDEV s = .ok t u ∧ Allocated sb s t u) ∨
      ((∀ b < sb.size, used sb s.disk b = true) ∧
        balloc ROOTDEV s = .stop (.panic "balloc: out of blocks")) := by
  rcases balloc_cases hsb with ⟨t, hlt, hclear, hleast, hrun⟩ | hfull
  · exact Or.inl ⟨t, s.alloc sb t, hrun, allocated_alloc hmeta hlt hclear hleast⟩
  · exact Or.inr hfull

theorem bfree_released (hsb : getSb (s.disk 1) = sb) (hb : used sb s.disk b = true) :
    ∃ u, bfree ROOTDEV b s = .ok () u ∧ Released sb s b u :=
  ⟨s.free sb b, bfree_eq hsb hb, released_free b⟩

theorem bfree_balloc (hsb : getSb (s.disk 1) = sb) (hmeta : MetaUsed sb s.disk)
    (hrun : balloc ROOTDEV s = .ok t u) :
    ∃ v, bfree ROOTDEV t u = .ok () v ∧
      ∀ b, IsBitmap sb (BBLOCK b sb.ninodes) → used sb v.disk b = used sb s.disk b := by
  rcases balloc_allocated hsb hmeta with ⟨t', u', hrun', ha⟩ | ⟨-, hstop⟩
  · rw [hrun] at hrun'
    obtain ⟨rfl, rfl⟩ := Outcome.ok.inj hrun'
    have hset : used sb u.disk t = true := by
      rw [ha.bits t ⟨t, ha.lt, rfl⟩, if_pos rfl]
    obtain ⟨v, hv, hr⟩ := bfree_released (ha.getSb_eq hmeta hsb) hset
    refine ⟨v, hv, fun b hb => ?_⟩
    rw [hr.bits]
    split_ifs with hbt
    · rw [hbt, ha.clear]
    · rw [ha.bits b hb, if_neg hbt]
  · rw [hrun] at hstop
    cases hstop

/-- The only free block is the one that `balloc` returns. -/
theorem balloc_bfree (hsb : getSb (s.disk 1) = sb) (hfull : ∀ b < sb.size, used sb s.disk b = true)
    (hb : b < sb.size) :
    ∃ u v, bfree ROOTDEV b s = .ok () u ∧ getSb (u.disk 1) = sb ∧ balloc ROOTDEV u = .ok b v := by
  obtain ⟨u, hu, hr⟩ := bfree_released hsb (hfull b hb)
  have hsb' := hr.getSb_eq hsb
  refine ⟨u, _, hu, hsb', balloc_eq hsb' hb ?_ ?_⟩
  · rw [hr.bits, if_pos rfl]
  · intro b' hlt
    rw [hr.bits, if_neg (by omega)]
    exact hfull b' (by omega)

end bitmap

/-- Where a call of `balloc` stands between the buffers that it locks. -/
inductive BallocCall where
  | start
  | scan (sb : Superblock) (b : ℕ)
  | zero (b : ℕ)
  | done (b : ℕ)
  | panicked

namespace BallocCall

/-- The part of the call that holds one buffer: read the super block, search a block of the
bitmap and set the bit found, or clear the new block. -/
def step : BallocCall → Disk → BallocCall × Disk
  | .start, d => (.scan (getSb (d 1)) 0, d)
  | .scan sb b, d =>
    if b < sb.size then
      match findClear (d (BBLOCK b sb.ninodes)) sb.size b (BPB + 1) 0 with
      | some bi => (.zero (b + bi), Function.update d (BBLOCK b sb.ninodes)
          ((d (BBLOCK b sb.ninodes)).setBit bi))
      | none => (.scan sb (b + BPB), d)
    else (.panicked, d)
  | .zero b, d => (.done b, Function.update d b Bytes.zero)
  | .done b, d => (.done b, d)
  | .panicked, d => (.panicked, d)

def block : BallocCall → Option ℕ
  | .start => none
  | .scan _ _ => none
  | .zero b => some b
  | .done b => some b
  | .panicked => none

/-- How a call that runs alone ends. -/
def ended (d : Disk) : Outcome Stop Fs ℕ → BallocCall × Disk
  | .ok b t => (.done b, t.disk)
  | .stop _ => (.panicked, d)

/-- Several calls, each taking a step when it is its turn. -/
def run {ι : Type} [DecidableEq ι] : List ι → (ι → BallocCall) → Disk → (ι → BallocCall) × Disk
  | [], f, d => (f, d)
  | i :: is, f, d => run is (Function.update f i ((f i).step d).1) ((f i).step d).2

section alone

variable {sb : Superblock} {s : Fs} {b fuel : ℕ}

theorem scan_found {d : Disk} {bi : ℕ} (hlt : b < sb.size)
    (hfind : findClear (d (BBLOCK b sb.ninodes)) sb.size b (BPB + 1) 0 = some bi) :
    (scan sb b).step d = (.zero (b + bi), Function.update d (BBLOCK b sb.ninodes)
      ((d (BBLOCK b sb.ninodes)).setBit bi)) := by
  simp only [step, if_pos hlt, hfind]

theorem scan_next {d : Disk} (hlt : b < sb.size)
    (hfind : findClear (d (BBLOCK b sb.ninodes)) sb.size b (BPB + 1) 0 = none) :
    (scan sb b).step d = (.scan sb (b + BPB), d) := by
  simp only [step, if_pos hlt, hfind]

theorem scan_end {d : Disk} (hlt : ¬ b < sb.size) : (scan sb b).step d = (.panicked, d) := by
  simp only [step, if_neg hlt]

theorem scan_alone (hfuel : sb.size ≤ b + BPB * fuel) (hb : b % BPB = 0) :
    ∃ k, (fun c : BallocCall × Disk => c.1.step c.2)^[k] (.scan sb b, s.disk) =
      ended s.disk (ballocFrom sb ROOTDEV fuel b s) := by
  induction fuel generalizing b with
  | zero =>
    refine ⟨1, ?_⟩
    rw [Function.iterate_one]
    dsimp only
    rw [scan_end (by omega)]
    rfl
  | succ fuel ih =>
    by_cases hlt : b < sb.size
    · cases hfind : findClear (s.disk (BBLOCK b sb.ninodes)) sb.size b (BPB + 1) 0 with
      | some bi =>
        have hbi := (findClear_some hfind).1
        obtain ⟨hblk, hmod⟩ := add_in_block sb hb hbi
        refine ⟨2, ?_⟩
        rw [ballocFrom_found hlt hb hbi hfind, Function.iterate_succ_apply, Function.iterate_one]
        dsimp only
        rw [scan_found hlt hfind, ended, Fs.alloc, allocDisk, hblk, hmod]
        rfl
      | none =>
        obtain ⟨k, hk⟩ := ih (b := b + BPB) (by rw [Nat.mul_succ] at hfuel; omega)
          (by rw [Nat.add_mod_right, hb])
        refine ⟨k + 1, ?_⟩
        rw [ballocFrom_next hlt hfind, ← hk, Function.iterate_succ_apply]
        dsimp only
        rw [scan_next hlt hfind]
    · refine ⟨1, ?_⟩
      rw [Function.iterate_one, ballocFrom, if_neg hlt]
      dsimp only
      rw [scan_end hlt]
      rfl

/-- A call that runs alone is `balloc`. -/
theorem balloc_alone (s : Fs) :
    ∃ k, (fun c : BallocCall × Disk => c.1.step c.2)^[k] (.start, s.disk) =
      ended s.disk (balloc ROOTDEV s) := by
  have hdiv := Nat.div_add_mod (getSb (s.disk 1)).size BPB
  have hmod := Nat.mod_lt (getSb (s.disk 1)).size (show 0 < BPB by decide)
  have hfuel : (getSb (s.disk 1)).size ≤ 0 + BPB * ((getSb (s.disk 1)).size / BPB + 2) := by
    rw [Nat.mul_add]
    omega
  obtain ⟨k, hk⟩ := scan_alone (s := s) hfuel rfl
  refine ⟨k + 1, ?_⟩
  rw [Function.iterate_succ_apply]
  simp only [balloc, bind, readsb_eq (s := s) rfl, ← hk]
  rfl

end alone

/-- Every call searches the bitmap of the super block `sb`, and the blocks that calls have taken
are marked, are neither the super block nor the bitmap, and are different. -/
structure Apart {ι : Type} (sb : Superblock) (f : ι → BallocCall) (d : Disk) : Prop where
  super : getSb (d 1) = sb
  metas : MetaUsed sb d
  scans : ∀ i sb' b, f i = .scan sb' b → sb' = sb ∧ b % BPB = 0
  taken : ∀ i x, (f i).block = some x → x < sb.size ∧ used sb d x = true ∧ x ≠ 1 ∧ ¬ IsBitmap sb x
  apart : ∀ i j x, (f i).block = some x → (f j).block = some x → i = j

section apart

variable {ι : Type} [DecidableEq ι] {sb : Superblock} {f : ι → BallocCall} {d d' : Disk}
  {c : BallocCall}

theorem Apart.update (h : Apart sb f d) (i : ι) (hsb : getSb (d' 1) = sb)
    (hused : ∀ x < sb.size, used sb d x = true → used sb d' x = true)
    (hscan : ∀ sb' b, c = .scan sb' b → sb' = sb ∧ b % BPB = 0)
    (htaken : ∀ x, c.block = some x →
      x < sb.size ∧ used sb d' x = true ∧ x ≠ 1 ∧ ¬ IsBitmap sb x)
    (hnew : ∀ x, c.block = some x → (f i).block = some x ∨ used sb d x = false) :
    Apart sb (Function.update f i c) d' := by
  have hclash : ∀ j x, j ≠ i → c.block = some x → (f j).block = some x → False := by
    intro j x hj hc hjx
    rcases hnew x hc with hi | hclear
    · exact hj (h.apart j i x hjx hi)
    · rw [(h.taken j x hjx).2.1] at hclear
      cases hclear
  refine ⟨hsb, fun x hx hm => hused x hx (h.metas x hx hm), ?_, ?_, ?_⟩
  · intro j sb' b hj
    by_cases hji : j = i
    · rw [hji, Function.update_self] at hj
      exact hscan sb' b hj
    · rw [Function.update_of_ne hji] at hj
      exact h.scans j sb' b hj
  · intro j x hj
    by_cases hji : j = i
    · rw [hji, Function.update_self] at hj
      exact htaken x hj
    · rw [Function.update_of_ne hji] at hj
      obtain ⟨hlt, hset, hne⟩ := h.taken j x hj
      exact ⟨hlt, hused x hlt hset, hne⟩
  · intro j k x hj hk
    by_cases hji : j = i
    · by_cases hki : k = i
      · rw [hji, hki]
      · rw [hji, Function.update_self] at hj
        rw [Function.update_of_ne hki] at hk
        exact (hclash k x hki hj hk).elim
    · rw [Function.update_of_ne hji] at hj
      by_cases hki : k = i
      · rw [hki, Function.update_self] at hk
        exact (hclash j x hji hk hj).elim
      · rw [Function.update_of_ne hki] at hk
        exact h.apart j k x hj hk

theorem Apart.idle (h : Apart sb f d) (i : ι) (hscan : ∀ sb' b, c = .scan sb' b →
      sb' = sb ∧ b % BPB = 0) (hnew : ∀ x, c.block = some x → (f i).block = some x) :
    Apart sb (Function.update f i c) d :=
  h.update i h.super (fun _ _ hx => hx) hscan (fun x hx => h.taken i x (hnew x hx))
    fun x hx => Or.inl (hnew x hx)

theorem Apart.step (h : Apart sb f d) (i : ι) :
    Apart sb (Function.update f i ((f i).step d).1) ((f i).step d).2 := by
  cases hi : f i with
  | start =>
    refine h.idle i ?_ (by simp [BallocCall.step, block])
    intro sb' b hc
    rw [BallocCall.step, scan.injEq] at hc
    obtain ⟨rfl, rfl⟩ := hc
    exact ⟨h.super, rfl⟩
  | scan sb' b =>
    obtain ⟨rfl, hb⟩ := h.scans i sb' b hi
    by_cases hlt : b < sb'.size
    · cases hfind : findClear (d (BBLOCK b sb'.ninodes)) sb'.size b (BPB + 1) 0 with
      | none =>
        rw [scan_next hlt hfind]
        refine h.idle i ?_ (by simp [block])
        rintro _ _ ⟨⟩
        exact ⟨rfl, by rw [Nat.add_mod_right, hb]⟩
      | some bi =>
        obtain ⟨hbi, hroom, hclear⟩ := findClear_some hfind
        obtain ⟨hblk, hmod⟩ := add_in_block sb' hb hbi
        have hfree : used sb' d (b + bi) = false := by rw [used_add d hb hbi, hclear]
        obtain ⟨hone, hmap⟩ := h.metas.not_meta hroom hfree
        have hbits : ∀ b', used sb' (Function.update d (BBLOCK b sb'.ninodes)
            ((d (BBLOCK b sb'.ninodes)).setBit bi)) b' =
              if b' = b + bi then true else used sb' d b' := by
          intro b'
          have hset := used_of_update_bitmap sb' d (b := b + bi)
            (fun j => Bytes.bit_setBit (mod_BPB_lt (b + bi)) j) b'
          rw [hblk, hmod] at hset
          exact hset
        rw [scan_found hlt hfind]
        refine h.update i ?_ ?_ (by rintro _ _ ⟨⟩) ?_ ?_
        · dsimp only
          rw [Function.update_of_ne (isBitmap_ne_one ⟨b, hlt, rfl⟩).symm]
          exact h.super
        · intro x _ hx
          rw [hbits, hx, ite_self]
        · rintro x ⟨⟩
          exact ⟨hroom, by rw [hbits, if_pos rfl], hone, hmap⟩
        · rintro x ⟨⟩
          exact Or.inr hfree
    · rw [scan_end hlt]
      exact h.idle i (by rintro _ _ ⟨⟩) (by simp [block])
  | zero x =>
    have hx : (f i).block = some x := by rw [hi, block]
    obtain ⟨hlt, hset, hone, hmap⟩ := h.taken i x hx
    have hbits : ∀ b < sb.size, used sb (Function.update d x Bytes.zero) b = used sb d b := by
      intro b hb
      rw [used, used, Function.update_of_ne fun heq => hmap ⟨b, hb, heq.symm⟩]
    refine h.update i ?_ ?_ (by rintro _ _ ⟨⟩) ?_ ?_
    · rw [BallocCall.step]
      dsimp only
      rw [Function.update_of_ne hone.symm]
      exact h.super
    · intro b hb hused
      rw [BallocCall.step, hbits b hb, hused]
    · rintro _ ⟨⟩
      exact ⟨hlt, by rw [BallocCall.step, hbits x hlt, hset], hone, hmap⟩
    · rintro _ ⟨⟩
      exact Or.inl hx
  | done x =>
    refine h.idle i (by rintro _ _ ⟨⟩) fun y hy => ?_
    rw [hi]
    exact hy
  | panicked => exact h.idle i (by rintro _ _ ⟨⟩) (by simp [BallocCall.step, block])

theorem Apart.run (h : Apart sb f d) (is : List ι) :
    Apart sb (BallocCall.run is f d).1 (BallocCall.run is f d).2 := by
  induction is generalizing f d with
  | nil => exact h
  | cons i is ih => exact ih (h.step i)

end apart

theorem apart_start {sb : Superblock} {d : Disk} (ι : Type) (hsb : getSb (d 1) = sb)
    (hmeta : MetaUsed sb d) : Apart sb (fun _ : ι => start) d :=
  ⟨hsb, hmeta, by rintro _ _ _ ⟨⟩, by rintro _ _ ⟨⟩, by rintro _ _ _ ⟨⟩⟩

end BallocCall

/-- `balloc` and `bfree` agree on the bitmap, whose own blocks and the super block are marked. -/
theorem balloc_bfree_bitmap (sb : Superblock) (s : Fs) (hsb : getSb (s.disk 1) = sb)
    (hsize : sb.size ≤ 2 ^ 31) (hmeta : MetaUsed sb s.disk) :
    ((∃ t u, balloc32 ROOTDEV s = .ok t u ∧ Allocated sb s t u) ∨
      ((∀ b < sb.size, used sb s.disk b = true) ∧
        balloc32 ROOTDEV s = .stop (.panic "balloc: out of blocks"))) ∧
    (∀ b < sb.size, used sb s.disk b = true →
      ∃ u, bfree ROOTDEV b s = .ok () u ∧ Released sb s b u) ∧
    (∀ t u, balloc32 ROOTDEV s = .ok t u → ∃ v, bfree ROOTDEV t u = .ok () v ∧
      ∀ b, IsBitmap sb (BBLOCK b sb.ninodes) → used sb v.disk b = used sb s.disk b) ∧
    ((∀ b < sb.size, used sb s.disk b = true) → ∀ b < sb.size,
      ∃ u v, bfree ROOTDEV b s = .ok () u ∧ balloc32 ROOTDEV u = .ok b v) ∧
    ∀ (ι : Type) [DecidableEq ι] (is : List ι) (i j : ι) (x : ℕ),
      (BallocCall.run is (fun _ => .start) s.disk).1 i = .done x →
      (BallocCall.run is (fun _ => .start) s.disk).1 j = .done x → i = j := by
  rw [balloc32_eq hsb hsize]
  refine ⟨balloc_allocated hsb hmeta, fun b _ hb => bfree_released hsb hb,
    fun t u hrun => bfree_balloc hsb hmeta hrun, fun hfull b hb => ?_, ?_⟩
  · obtain ⟨u, v, hu, hsb', hv⟩ := balloc_bfree hsb hfull hb
    exact ⟨u, v, hu, by rw [balloc32_eq hsb' hsize, hv]⟩
  · intro ι _ is i j x hi hj
    have hrun := (BallocCall.apart_start ι hsb hmeta).run is
    exact hrun.apart i j x (by rw [hi]; rfl) (by rw [hj]; rfl)

/-- The geometry of `mkfs`, with the first `u` blocks marked. -/
def markedDisk (u : ℕ) : Disk := fun b =>
  if b = 1 then Mkfs.sbBlock else if b = 28 then Mkfs.bitmap u else Bytes.zero

theorem used_markedDisk {u b : ℕ} (hu : u ≤ 8 * BSIZE) (hb : b < 1024) :
    used mkfsSb (markedDisk u) b = decide (b < u) := by
  have hn : mkfsSb.ninodes = 200 := rfl
  have hblk : BBLOCK b mkfsSb.ninodes = 28 := by
    rw [BBLOCK_eq, hn]
    omega
  rw [used, hblk]
  show (Mkfs.bitmap u).bit (b % BPB) = _
  rw [Mkfs.bit_bitmap hu, Nat.mod_eq_of_lt (lt_trans hb (by decide))]

theorem metaUsed_markedDisk : MetaUsed mkfsSb (markedDisk 29) := by
  have hn : mkfsSb.ninodes = 200 := rfl
  rintro x hx (rfl | ⟨b, hb, rfl⟩)
  · exact (used_markedDisk (by decide) (by decide)).trans (by decide)
  · have hb' : b < 1024 := hb
    have hblk : BBLOCK b mkfsSb.ninodes = 28 := by
      rw [BBLOCK_eq, hn]
      omega
    rw [hblk]
    exact (used_markedDisk (by decide) (by decide)).trans (by decide)

theorem balloc_bfree_bitmap_mkfs :
    ∃ t u, balloc32 ROOTDEV (Fs.boot (markedDisk 29)) = .ok t u ∧
      Allocated mkfsSb (Fs.boot (markedDisk 29)) t u := by
  rcases (balloc_bfree_bitmap mkfsSb (Fs.boot (markedDisk 29)) Mkfs.getSb_sbBlock (by decide)
    metaUsed_markedDisk).1 with h | ⟨hfull, -⟩
  · exact h
  · have hset := hfull 29 (by decide)
    have hclear : used mkfsSb (markedDisk 29) 29 = false :=
      (used_markedDisk (by decide) (by decide)).trans (by decide)
    rw [show (Fs.boot (markedDisk 29)).disk = markedDisk 29 from rfl, hclear] at hset
    cases hset

/-- With the block of the bitmap itself not marked, `balloc` returns it and clears the bitmap. -/
theorem balloc_returns_bitmap : ∃ u, balloc32 ROOTDEV (Fs.boot (markedDisk 28)) = .ok 28 u ∧
    used mkfsSb (markedDisk 28) 0 = true ∧ used mkfsSb u.disk 0 = false := by
  have hsb : getSb ((Fs.boot (markedDisk 28)).disk 1) = mkfsSb := Mkfs.getSb_sbBlock
  refine ⟨(Fs.boot (markedDisk 28)).alloc mkfsSb 28, ?_, ?_, ?_⟩
  · rw [balloc32_eq hsb (by decide)]
    refine balloc_eq hsb (by decide) ?_ ?_
    · exact (used_markedDisk (by decide) (by decide)).trans (by decide)
    · intro b hb
      exact (used_markedDisk (by decide) (by omega)).trans (by simpa using hb)
  · exact (used_markedDisk (by decide) (by decide)).trans (by decide)
  · have hblk : BBLOCK 0 mkfsSb.ninodes = 28 := rfl
    rw [used, hblk, Fs.alloc, allocDisk]
    dsimp only
    rw [Function.update_self, Bytes.bit_zero]

end Xv6
