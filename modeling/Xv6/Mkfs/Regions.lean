import Xv6.Mkfs.Built
import Xv6.Fs.Slots
import Xv6.Log.Commit
import Xv6.Lib.Run

/-! Which blocks the kernel's `balloc` returns on an image that `mkfs` made. -/
namespace Xv6
open Run

/-- A run of `balloc` and `bfree` calls. `live` are the blocks that may be freed, `returned`
all the blocks that `balloc` has returned. -/
structure AllocState where
  fs : Fs
  live : List ℕ
  returned : List ℕ

inductive AllocAct where
  | balloc
  | bfree (b : ℕ)

def allocStep (s : AllocState) : AllocAct → Option AllocState
  | .balloc =>
    match balloc ROOTDEV s.fs with
    | .ok b t => some ⟨t, b :: s.live, b :: s.returned⟩
    | .stop _ => none
  | .bfree b =>
    if b ∈ s.live then
      match bfree ROOTDEV b s.fs with
      | .ok _ t => some ⟨t, s.live.erase b, s.returned⟩
      | .stop _ => none
    else none

def AllocState.boot (m : Mkfs) : AllocState := ⟨.boot m.img, m.given, []⟩

/-- Some block below the log area is free whenever `balloc` is called. -/
def RoomBelowLog (sb : Superblock) (s : AllocState) (a : AllocAct) : Prop :=
  a = .balloc → ∃ b, b < (initlog sb).start ∧ used sb s.fs.disk b = false

structure AllocInv (s : AllocState) : Prop where
  sb : getSb (s.fs.disk 1) = mkfsSb
  meta_used : ∀ b < dataStart mkfsSb, used mkfsSb s.fs.disk b = true
  live : ∀ b ∈ s.live, dataStart mkfsSb ≤ b
  returned : ∀ b ∈ s.returned, dataStart mkfsSb ≤ b

theorem BBLOCK_mkfsSb {b : ℕ} (hb : b < BPB) : BBLOCK b mkfsSb.ninodes = 28 := by
  have hb' : b < 4096 := hb
  have hn : mkfsSb.ninodes = 200 := rfl
  rw [BBLOCK_eq, hn]
  omega

theorem getSb_allocDisk {sb : Superblock} {d : Disk} {b : ℕ} (hb : b ≠ 1) :
    allocDisk sb d b 1 = d 1 := by
  have hne : 1 ≠ BBLOCK b sb.ninodes := Nat.ne_of_lt (one_lt_BBLOCK b sb.ninodes)
  rw [allocDisk, Function.update_of_ne hb.symm, Function.update_of_ne hne]

theorem getSb_freeDisk {sb : Superblock} {d : Disk} (b : ℕ) : freeDisk sb d b 1 = d 1 := by
  have hne : 1 ≠ BBLOCK b sb.ninodes := Nat.ne_of_lt (one_lt_BBLOCK b sb.ninodes)
  rw [freeDisk, Function.update_of_ne hne]

theorem allocInv_boot {m : Mkfs} (h : m.Built) : AllocInv (.boot m) := by
  constructor
  · exact h.sb
  · intro b hb
    have hb' : b < 29 := hb
    have hlo := h.lo
    show used mkfsSb m.img b = true
    rw [h.bits b (lt_trans hb (by decide)), decide_eq_true_eq]
    omega
  · intro b hb
    exact ((h.given b).mp hb).1
  · intro b hb
    simp [AllocState.boot] at hb

theorem allocStep_balloc {s t : AllocState} (h : AllocInv s)
    (hs : allocStep s .balloc = some t) :
    ∃ b, b < mkfsSb.size ∧ dataStart mkfsSb ≤ b ∧ used mkfsSb s.fs.disk b = false ∧
      (∀ b' < b, used mkfsSb s.fs.disk b' = true) ∧
      t = ⟨s.fs.alloc mkfsSb b, b :: s.live, b :: s.returned⟩ := by
  rcases balloc_cases h.sb with ⟨b, hb, hclear, hset, hrun⟩ | ⟨-, hrun⟩
  · simp only [allocStep, hrun, Option.some.injEq] at hs
    refine ⟨b, hb, ?_, hclear, hset, hs.symm⟩
    by_contra hlt
    have hused := h.meta_used b (by omega)
    rw [hused] at hclear
    exact Bool.noConfusion hclear
  · simp [allocStep, hrun] at hs

theorem allocStep_bfree {s t : AllocState} {b : ℕ} (h : AllocInv s)
    (hs : allocStep s (.bfree b) = some t) :
    b ∈ s.live ∧ t = ⟨s.fs.free mkfsSb b, s.live.erase b, s.returned⟩ := by
  simp only [allocStep] at hs
  split_ifs at hs with hb
  cases hused : used mkfsSb s.fs.disk b with
  | true =>
    simp only [bfree_eq h.sb hused, Option.some.injEq] at hs
    exact ⟨hb, hs.symm⟩
  | false =>
    simp [bfree_free h.sb hused] at hs

theorem allocInv_step {s t : AllocState} {a : AllocAct} (h : AllocInv s)
    (hs : allocStep s a = some t) : AllocInv t := by
  cases a with
  | balloc =>
    obtain ⟨b, -, hdata, -, -, rfl⟩ := allocStep_balloc h hs
    have hdata' : 29 ≤ b := hdata
    constructor
    · show getSb (allocDisk mkfsSb s.fs.disk b 1) = mkfsSb
      rw [getSb_allocDisk (by omega), h.sb]
    · intro b' hb'
      have hblk : BBLOCK b' mkfsSb.ninodes = 28 := BBLOCK_mkfsSb (lt_trans hb' (by decide))
      show used mkfsSb (allocDisk mkfsSb s.fs.disk b) b' = true
      rw [used_allocDisk (by omega)]
      split_ifs
      · rfl
      · exact h.meta_used b' hb'
    · simpa using ⟨hdata, h.live⟩
    · simpa using ⟨hdata, h.returned⟩
  | bfree b =>
    obtain ⟨hb, rfl⟩ := allocStep_bfree h hs
    constructor
    · show getSb (freeDisk mkfsSb s.fs.disk b 1) = mkfsSb
      rw [getSb_freeDisk, h.sb]
    · intro b' hb'
      have hlive := h.live b hb
      show used mkfsSb (freeDisk mkfsSb s.fs.disk b) b' = true
      rw [used_freeDisk, if_neg (by omega)]
      exact h.meta_used b' hb'
    · intro b' hb'
      exact h.live b' (List.mem_of_mem_erase hb')
    · exact h.returned

/-- One call: what it returns is outside the log area exactly if there was room below it. -/
theorem allocStep_returned {s t : AllocState} {a : AllocAct} (h : AllocInv s)
    (hs : allocStep s a = some t) :
    (∀ b ∈ t.returned, ¬ (initlog mkfsSb).Mem b) ↔
      (∀ b ∈ s.returned, ¬ (initlog mkfsSb).Mem b) ∧ RoomBelowLog mkfsSb s a := by
  cases a with
  | balloc =>
    obtain ⟨b, hb, -, hclear, hset, rfl⟩ := allocStep_balloc h hs
    have hroom : RoomBelowLog mkfsSb s .balloc ↔ ¬ (initlog mkfsSb).Mem b := by
      have hmem : (initlog mkfsSb).Mem b ↔ 994 ≤ b := by
        refine ⟨fun hm => hm.1, fun hm => ⟨hm, hb⟩⟩
      have hstart : (initlog mkfsSb).start = 994 := rfl
      simp only [RoomBelowLog, true_imp_iff, hmem, hstart, not_le]
      constructor
      · rintro ⟨b', hb', hfree⟩
        by_contra hle
        rw [hset b' (by omega)] at hfree
        exact Bool.noConfusion hfree
      · intro hlt
        exact ⟨b, hlt, hclear⟩
    rw [hroom]
    simp only [List.mem_cons, forall_eq_or_imp]
    exact and_comm
  | bfree b =>
    obtain ⟨-, rfl⟩ := allocStep_bfree h hs
    have hroom : RoomBelowLog mkfsSb s (.bfree b) := fun ha => AllocAct.noConfusion ha
    simp [hroom]

theorem exec_returned {s t : AllocState} {as : List AllocAct} (h : AllocInv s)
    (hs : exec allocStep s as = some t) :
    (∀ b ∈ t.returned, ¬ (initlog mkfsSb).Mem b) ↔
      (∀ b ∈ s.returned, ¬ (initlog mkfsSb).Mem b) ∧
        Along allocStep (RoomBelowLog mkfsSb) s as := by
  induction as generalizing s with
  | nil =>
    obtain rfl : s = t := Option.some.inj hs
    simp [Along]
  | cons a as ih =>
    obtain ⟨u, hu, hs⟩ := exec_cons hs
    rw [ih (allocInv_step h hu) hs, along_cons hu, allocStep_returned h hu, and_assoc]

/-- On an image that `mkfs` made of at most 206 files, no run of `balloc` and `bfree` calls
returns a block before the data area; and the blocks returned are all outside the log exactly
if every `balloc` call finds a free block below the log. -/
theorem balloc_regions (files : List (List UInt8 × List UInt8)) (hf : files.length ≤ 206)
    (m : Mkfs) (hm : Mkfs.main files .start = .ok () m) (as : List AllocAct)
    (t : AllocState) (ht : exec allocStep (.boot m) as = some t) :
    (∀ b ∈ t.returned, dataStart (getSb (m.img 1)) ≤ b) ∧
      ((∀ b ∈ t.returned, ¬ (initlog (getSb (m.img 1))).Mem b) ↔
        Along allocStep (RoomBelowLog (getSb (m.img 1))) (.boot m) as) := by
  have hbuilt := Mkfs.main_built hf hm
  have hinv := allocInv_boot hbuilt
  rw [hbuilt.sb]
  constructor
  · have ht' := Reaches.invariant (I := AllocInv) (fun _ _ _ => allocInv_step) hinv ⟨as, ht⟩
    exact ht'.returned
  · rw [exec_returned hinv ht]
    simp [AllocState.boot]

theorem main_used (files : List (List UInt8 × List UInt8)) (hf : files.length ≤ 206) (u : ℕ)
    (hrun : (match Mkfs.main files .start with
      | .ok _ m => some m.usedblocks
      | .stop _ => none) = some u) :
    ∃ m, Mkfs.main files .start = .ok () m ∧ m.Built ∧ m.usedblocks = u ∧
      ∀ b < mkfsSb.size, used mkfsSb m.img b = decide (b < u) := by
  cases hm : Mkfs.main files .start with
  | stop e => simp [hm] at hrun
  | ok _ m =>
    rw [hm] at hrun
    have hbuilt := Mkfs.main_built hf hm
    have hused : m.usedblocks = u := Option.some.inj hrun
    refine ⟨m, rfl, hbuilt, hused, fun b hb => ?_⟩
    rw [hbuilt.bits b (lt_trans hb (by decide)), hused]

section calls

variable {s : AllocState} {b : ℕ}

theorem allocStep_first (h : AllocInv s) (hb : b < mkfsSb.size)
    (hfree : used mkfsSb s.fs.disk b = false) (hset : ∀ b' < b, used mkfsSb s.fs.disk b' = true) :
    allocStep s .balloc = some ⟨s.fs.alloc mkfsSb b, b :: s.live, b :: s.returned⟩ := by
  simp only [allocStep, balloc_eq h.sb hb hfree hset]

theorem allocStep_live (h : AllocInv s) (hb : b ∈ s.live) (hused : used mkfsSb s.fs.disk b = true) :
    allocStep s (.bfree b) = some ⟨s.fs.free mkfsSb b, s.live.erase b, s.returned⟩ := by
  simp only [allocStep, if_pos hb, bfree_eq h.sb hused]

end calls

/-- On a disk whose free blocks are those from `u` on, `k` calls return the blocks `u`,
`u + 1`, … -/
theorem exec_ballocs {s : AllocState} {u k : ℕ} (h : AllocInv s) (hu : dataStart mkfsSb ≤ u)
    (hbits : ∀ b < mkfsSb.size, used mkfsSb s.fs.disk b = decide (b < u))
    (hk : u + k ≤ mkfsSb.size) :
    ∃ t, exec allocStep s (List.replicate k .balloc) = some t ∧ s.returned ⊆ t.returned ∧
      ∀ b, u ≤ b → b < u + k → b ∈ t.returned := by
  induction k generalizing s u with
  | zero => exact ⟨s, rfl, fun b hb => hb, fun b hlo hhi => by omega⟩
  | succ k ih =>
    have hu' : 29 ≤ u := hu
    have hsize : mkfsSb.size = 1024 := rfl
    have hstep := allocStep_first h (b := u) (by omega) (by rw [hbits u (by omega)]; simp)
      fun b hb => by rw [hbits b (by omega)]; simp [hb]
    have hbits' : ∀ b < mkfsSb.size,
        used mkfsSb (s.fs.alloc mkfsSb u).disk b = decide (b < u + 1) := by
      intro b hb
      have hblk : BBLOCK b mkfsSb.ninodes = 28 := BBLOCK_mkfsSb (lt_trans hb (by decide))
      show used mkfsSb (allocDisk mkfsSb s.fs.disk u) b = _
      rw [used_allocDisk (by omega)]
      split_ifs with hbu
      · simp [hbu]
      · rw [hbits b hb, decide_eq_decide]
        omega
    obtain ⟨t, ht, hsub, hall⟩ := ih (allocInv_step h hstep) (by omega) hbits' (by omega)
    refine ⟨t, ?_, fun b hb => hsub (List.mem_cons_of_mem u hb), ?_⟩
    · simp only [List.replicate_succ, exec, hstep, Option.bind_some, ht]
    · intro b hlo hhi
      rcases Nat.eq_or_lt_of_le hlo with rfl | hlt
      · exact hsub List.mem_cons_self
      · exact hall b hlt (by omega)

/-- An image with one file: `balloc` returns the first free block, and once the block of the file
has been freed, that one. -/
theorem balloc_regions_file : ∃ m t, Mkfs.main [([97], [104, 105])] .start = .ok () m ∧
    exec allocStep (.boot m) [.balloc, .bfree 30, .balloc] = some t ∧ t.returned = [30, 31] ∧
    ∀ b ∈ t.returned, ¬ (initlog (getSb (m.img 1))).Mem b := by
  obtain ⟨m, hm, hbuilt, hused, hbits⟩ :=
    main_used [([97], [104, 105])] (by decide) 31 (by decide +kernel)
  have hsize : mkfsSb.size = 1024 := rfl
  have hgiven : 30 ∈ m.given := (hbuilt.given 30).mpr (by omega)
  have hinv := allocInv_boot hbuilt
  have hfirst := allocStep_first hinv (b := 31) (by decide) (by
    rw [show (AllocState.boot m).fs.disk = m.img from rfl, hbits 31 (by decide)]
    decide) fun b hb => by
      rw [show (AllocState.boot m).fs.disk = m.img from rfl, hbits b (by omega), decide_eq_true hb]
  set s1 : AllocState := ⟨(AllocState.boot m).fs.alloc mkfsSb 31, _, _⟩
  have hinv1 := allocInv_step hinv hfirst
  have hbits1 : ∀ b ≤ 31, used mkfsSb s1.fs.disk b = true := by
    intro b hb
    have hblk := BBLOCK_mkfsSb (b := b) (by rw [show BPB = 4096 from rfl]; omega)
    change used mkfsSb (allocDisk mkfsSb m.img 31) b = true
    rw [used_allocDisk (by omega), hbits b (by omega)]
    split_ifs
    · rfl
    · exact decide_eq_true (by omega)
  have hfree := allocStep_live hinv1 (List.mem_cons_of_mem _ hgiven) (hbits1 30 (by decide))
  set s2 : AllocState := ⟨s1.fs.free mkfsSb 30, _, _⟩
  have hbits2 : ∀ b, used mkfsSb s2.fs.disk b =
      if b = 30 then false else used mkfsSb s1.fs.disk b :=
    used_freeDisk mkfsSb s1.fs.disk 30
  have hagain := allocStep_first (allocInv_step hinv1 hfree) (b := 30) (by decide)
    (by rw [hbits2, if_pos rfl]) fun b hb => by rw [hbits2, if_neg (by omega), hbits1 b (by omega)]
  have hrun : exec allocStep (.boot m) [.balloc, .bfree 30, .balloc] =
      some ⟨s2.fs.alloc mkfsSb 30, 30 :: s2.live, 30 :: s2.returned⟩ := by
    simp only [exec, hfirst, hfree, hagain, Option.bind_some]
  have hout := (balloc_regions _ (by decide) m hm _ _ hrun).2
  refine ⟨m, _, hm, hrun, rfl, hout.mpr ?_⟩
  rw [hbuilt.sb, along_cons hfirst, along_cons hfree, along_cons hagain]
  refine ⟨fun _ => ⟨31, by decide, ?_⟩, by rintro ⟨⟩, fun _ => ⟨30, by decide, ?_⟩, trivial⟩
  · exact (hbits 31 (by decide)).trans (by decide)
  · rw [hbits2, if_pos rfl]

/-- On an image without files 965 calls of `balloc` reach the first block of the log. -/
theorem balloc_returns_log_block : ∃ m t, Mkfs.main [] .start = .ok () m ∧
    exec allocStep (.boot m) (List.replicate 965 .balloc) = some t ∧
    ∃ b ∈ t.returned, (initlog (getSb (m.img 1))).Mem b := by
  obtain ⟨m, hm, hbuilt, -, hbits⟩ := main_used [] (by decide) 30 (by decide +kernel)
  obtain ⟨t, ht, -, hall⟩ := exec_ballocs (k := 965) (allocInv_boot hbuilt) (by decide) hbits
    (by decide)
  have hlog : (initlog (getSb (m.img 1))).Mem 994 := by
    rw [hbuilt.sb]
    decide
  exact ⟨m, t, hm, ht, 994, hall 994 (by decide) (by decide), hlog⟩

end Xv6
