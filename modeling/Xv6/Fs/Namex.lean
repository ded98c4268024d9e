import Xv6.Fs.Path
import Xv6.Fs.CacheSpec

/-! `namex` walks the components of a path, and each step is a `dirlookup` on the disk. -/
namespace Xv6
open Prog

/-- The entries of a directory with the given contents, from the `k`th on. -/
def entriesFrom (c : List UInt8) (k : ℕ) : List (List UInt8) :=
  (List.range' k (c.length / DIRENT - k)).map fun j => (c.drop (j * DIRENT)).take DIRENT

def Matches (name de : List UInt8) : Prop := deInum de ≠ 0 ∧ namecmp name (deName de) = 0

instance (name de : List UInt8) : Decidable (Matches name de) := by
  unfold Matches
  infer_instance

/-- The inode number a directory gives to a name. -/
def entryIn (c name : List UInt8) : Option ℕ := ((entriesFrom c 0).find? (Matches name)).map deInum

/-- `dirlookup` on the disk; a file that is not a directory has no entries. -/
def lookupAt (d : Disk) (i : ℕ) (name : List UInt8) : Option ℕ :=
  if (dinodeAt d i).type = T_DIR then entryIn (contents d (dinodeAt d i)) name else none

def resolve (d : Disk) (i : ℕ) (names : List (List UInt8)) : Option ℕ := names.foldlM (lookupAt d) i

def resolveParent (d : Disk) (i : ℕ) (names : List (List UInt8)) : Option (ℕ × List UInt8) :=
  names.getLast?.bind fun last =>
    ((resolve d i names.dropLast).filter fun j => (dinodeAt d j).type = T_DIR).map (·, last)

/-- What `namex` should find: an inode, and for `nameiparent` the last name. -/
def walkNames (d : Disk) (parent : Bool) : ℕ → List (List UInt8) → Option (ℕ × List UInt8)
  | i, [] => if parent then none else some (i, [])
  | i, name :: names =>
    if (dinodeAt d i).type ≠ T_DIR then none
    else if parent ∧ names = [] then some (i, name)
    else (lookupAt d i name).bind fun j => walkNames d parent j names

/-- A name has to be looked up in an inode that is free. -/
def Dead (d : Disk) (i : ℕ) (names : List (List UInt8)) : Prop :=
  ∃ k < names.length, ∃ j, resolve d i (names.take k) = some j ∧ (dinodeAt d j).type = 0

/-- A file system at rest: no inode is locked, the cache agrees with the disk, no inode has lost its
last link and its last reference, and directories hold whole entries. -/
structure AtRest (sb : Superblock) (s : Fs) : Prop where
  disk : WellFormed sb s.disk
  entry : ∀ ip, 0 < (s.inode ip).ref →
    (s.inode ip).dev = ROOTDEV ∧ (s.inode ip).inum < sb.ninodes
  uniq : ∀ ip jp, 0 < (s.inode ip).ref → 0 < (s.inode jp).ref →
    (s.inode ip).inum = (s.inode jp).inum → ip = jp
  valid : ∀ ip, 0 < (s.inode ip).ref → (s.inode ip).valid = true →
    (s.inode ip).din = dinodeAt s.disk (s.inode ip).inum ∧ (s.inode ip).din.type ≠ 0
  idle : ∀ ip, (s.inode ip).busy = false
  ref : ∀ ip, 0 ≤ (s.inode ip).ref
  linked : ∀ i < sb.ninodes, (dinodeAt s.disk i).type ≠ 0 → (dinodeAt s.disk i).nlink = 0 →
    ∃ ip, 0 < (s.inode ip).ref ∧ (s.inode ip).inum = i
  dirs : ∀ i < sb.ninodes, (dinodeAt s.disk i).type = T_DIR →
    (dinodeAt s.disk i).size % DIRENT = 0 ∧
      ∀ name j, entryIn (contents s.disk (dinodeAt s.disk i)) name = some j → j < sb.ninodes

/-- The walk that began in `s` has come to `t`, holding the references `E` and the lock of `L`. -/
structure Walking (sb : Superblock) (s : Fs) (E : Multiset InodeId) (L : Finset InodeId) (t : Fs) :
    Prop where
  disk : t.disk = s.disk
  file : t.file = s.file
  proc : t.proc = s.proc
  logged : t.logged = s.logged
  ops : t.ops = s.ops
  ref : ∀ ip, (t.inode ip).ref = (s.inode ip).ref + E.count ip
  same : ∀ ip, 0 < (s.inode ip).ref → (t.inode ip).inum = (s.inode ip).inum
  entry : ∀ ip, 0 < (t.inode ip).ref →
    (t.inode ip).dev = ROOTDEV ∧ (t.inode ip).inum < sb.ninodes
  uniq : ∀ ip jp, 0 < (t.inode ip).ref → 0 < (t.inode jp).ref →
    (t.inode ip).inum = (t.inode jp).inum → ip = jp
  valid : ∀ ip, 0 < (t.inode ip).ref → (t.inode ip).valid = true →
    (t.inode ip).din = dinodeAt s.disk (t.inode ip).inum ∧ (t.inode ip).din.type ≠ 0
  busy : ∀ ip, (t.inode ip).busy = true ↔ ip ∈ L
  locked : ∀ ip ∈ L, 0 < (t.inode ip).ref ∧ (t.inode ip).valid = true

section walking

variable {sb : Superblock} {s t u : Fs} {E : Multiset InodeId} {L : Finset InodeId}
  {ip jp : InodeId} {i inum : ℕ} {name : List UInt8}

theorem AtRest.walking (h : AtRest sb s) : Walking sb s 0 ∅ s := by
  refine ⟨rfl, rfl, rfl, rfl, rfl, fun ip => by simp, fun _ _ => rfl, h.entry, h.uniq, h.valid,
    fun ip => ?_, by simp⟩
  rw [h.idle ip]
  simp

theorem Walking.setInode {E' : Multiset InodeId} {L' : Finset InodeId} {x : Inode}
    (h : Walking sb s E L t) (href : x.ref = (s.inode ip).ref + E'.count ip)
    (hcount : ∀ jp, jp ≠ ip → E'.count jp = E.count jp)
    (hsame : 0 < (s.inode ip).ref → x.inum = (s.inode ip).inum)
    (hentry : 0 < x.ref → x.dev = ROOTDEV ∧ x.inum < sb.ninodes)
    (huniq : 0 < x.ref → ∀ jp, jp ≠ ip → 0 < (t.inode jp).ref → (t.inode jp).inum ≠ x.inum)
    (hvalid : 0 < x.ref → x.valid = true → x.din = dinodeAt s.disk x.inum ∧ x.din.type ≠ 0)
    (hbusy : x.busy = true ↔ ip ∈ L') (hL : ∀ jp, jp ≠ ip → (jp ∈ L' ↔ jp ∈ L))
    (hlocked : ip ∈ L' → 0 < x.ref ∧ x.valid = true) :
    Walking sb s E' L' (t.setInode ip x) := by
  have hself : (t.setInode ip x).inode ip = x := setInode_inode ..
  have hother : ∀ jp, jp ≠ ip → (t.setInode ip x).inode jp = t.inode jp :=
    fun jp hj => setInode_inode_of_ne hj x
  have hall : ∀ {P : InodeId → Inode → Prop}, P ip x → (∀ jp, jp ≠ ip → P jp (t.inode jp)) →
      ∀ jp, P jp ((t.setInode ip x).inode jp) := by
    intro P hx ho jp
    by_cases hj : jp = ip
    · rw [hj, hself]
      exact hx
    · rw [hother jp hj]
      exact ho jp hj
  refine ⟨h.disk, h.file, h.proc, h.logged, h.ops, ?_, ?_, ?_, ?_, ?_, ?_, ?_⟩
  · refine hall (P := fun jp y => y.ref = (s.inode jp).ref + E'.count jp) href fun jp hj => ?_
    rw [hcount jp hj]
    exact h.ref jp
  · exact hall (P := fun jp y => 0 < (s.inode jp).ref → y.inum = (s.inode jp).inum) hsame
      fun jp _ => h.same jp
  · exact hall (P := fun _ y => 0 < y.ref → y.dev = ROOTDEV ∧ y.inum < sb.ninodes) hentry
      fun jp _ => h.entry jp
  · intro jp kp hj hk heq
    by_cases hjp : jp = ip
    · by_cases hkp : kp = ip
      · rw [hjp, hkp]
      · rw [hjp, hself] at hj heq
        rw [hother kp hkp] at hk heq
        exact absurd heq.symm (huniq hj kp hkp hk)
    · rw [hother jp hjp] at hj heq
      by_cases hkp : kp = ip
      · rw [hkp, hself] at hk heq
        exact absurd heq (huniq hk jp hjp hj)
      · rw [hother kp hkp] at hk heq
        exact h.uniq jp kp hj hk heq
  · exact hall (P := fun _ y => 0 < y.ref → y.valid = true →
      y.din = dinodeAt s.disk y.inum ∧ y.din.type ≠ 0) hvalid fun jp _ => h.valid jp
  · refine hall (P := fun jp y => y.busy = true ↔ jp ∈ L') hbusy fun jp hj => ?_
    rw [hL jp hj]
    exact h.busy jp
  · refine hall (P := fun jp y => jp ∈ L' → 0 < y.ref ∧ y.valid = true) hlocked fun jp hj => ?_
    rw [hL jp hj]
    exact h.locked jp

/-- Fewer than two entries of the inode cache are unused. -/
def Scarce (s : Fs) : Prop := (Finset.univ.filter fun ip => (s.inode ip).ref = 0).card < 2

theorem Walking.scarce (h : Walking sb s E L t) (hE : E.card ≤ 1)
    (hfull : ∀ ip, (t.inode ip).ref ≠ 0) : Scarce s := by
  have hsub : (Finset.univ.filter fun ip => (s.inode ip).ref = 0) ⊆ E.toFinset := by
    intro ip hip
    have h0 := (Finset.mem_filter.mp hip).2
    have href := h.ref ip
    rw [Multiset.mem_toFinset, ← Multiset.count_pos]
    have hne := hfull ip
    omega
  have hle := (Finset.card_le_card hsub).trans (Multiset.toFinset_card_le E)
  unfold Scarce
  omega

theorem igetScan_full {dev : ℕ} {l : List InodeId} {empty : Option InodeId}
    (h : igetScan s dev inum l empty = .inr none) :
    empty = none ∧ ∀ ip ∈ l, (s.inode ip).ref ≠ 0 := by
  induction l generalizing empty with
  | nil =>
    rw [igetScan, Sum.inr.injEq] at h
    exact ⟨h, by simp⟩
  | cons jp l ih =>
    rw [igetScan] at h
    by_cases hj : (s.inode jp).ref > 0 ∧ (s.inode jp).dev = dev ∧ (s.inode jp).inum = inum
    · rw [if_pos hj] at h
      cases h
    · rw [if_neg hj] at h
      obtain ⟨hempty, hall⟩ := ih h
      by_cases hnew : empty = none ∧ (s.inode jp).ref = 0
      · rw [if_pos hnew] at hempty
        cases hempty
      · rw [if_neg hnew] at hempty
        refine ⟨hempty, fun ip hip => ?_⟩
        rcases List.mem_cons.mp hip with rfl | hip
        · exact fun h0 => hnew ⟨hempty, h0⟩
        · exact hall ip hip

theorem Walking.iget (h : Walking sb s E L t) (hs : ∀ ip, 0 ≤ (s.inode ip).ref)
    (hi : inum < sb.ninodes) :
    wp (Xv6.iget ROOTDEV inum) t
      (fun jp u => Walking sb s (jp ::ₘ E) L u ∧ (u.inode jp).inum = inum ∧
        ∀ kp, 0 < (t.inode kp).ref → (u.inode kp).inum = (t.inode kp).inum)
      (fun e => e = .panic "iget: no inodes" ∧ ∀ kp, (t.inode kp).ref ≠ 0) := by
  unfold Xv6.iget
  rw [wp_bind, wp_get]
  cases hscan : igetScan t ROOTDEV inum (List.finRange NINODE) none with
  | inl jp =>
    obtain ⟨hpos, hinum⟩ := igetScan_inl hscan
    have href := h.ref jp
    dsimp only
    rw [wp_bind, wp_modifyInode, wp_pure]
    refine ⟨h.setInode ?_ ?_ (h.same jp) (fun _ => h.entry jp hpos) ?_ (fun _ => h.valid jp hpos)
      (h.busy jp) (fun _ _ => Iff.rfl) ?_, ?_, fun kp _ => ?_⟩
    · rw [Multiset.count_cons_self]
      dsimp only
      omega
    · exact fun kp hk => Multiset.count_cons_of_ne hk E
    · exact fun _ kp hk hkpos heq => hk (h.uniq kp jp hkpos hpos heq)
    · intro hjL
      dsimp only
      exact ⟨by omega, (h.locked jp hjL).2⟩
    · rw [setInode_inode]
      exact hinum
    · by_cases hkj : kp = jp
      · rw [hkj, setInode_inode]
      · rw [setInode_inode_of_ne hkj]
  | inr e =>
    cases e with
    | none =>
      dsimp only
      rw [wp_panic]
      exact ⟨rfl, fun ip => (igetScan_full hscan).2 ip (List.mem_finRange ip)⟩
    | some jp =>
      obtain ⟨hall, hempty⟩ := igetScan_inr hscan
      have h0 : (t.inode jp).ref = 0 := (hempty jp rfl).resolve_left (by simp)
      have href := h.ref jp
      have hsref := hs jp
      have hnotL : jp ∉ L := fun hmem => by
        have hpos := (h.locked jp hmem).1
        omega
      dsimp only
      rw [wp_bind, wp_modifyInode, wp_pure]
      refine ⟨h.setInode ?_ ?_ ?_ (fun _ => ⟨rfl, hi⟩) ?_ (fun _ hv => by cases hv) ?_
        (fun _ _ => Iff.rfl) (fun hmem => absurd hmem hnotL), ?_, fun kp hk => ?_⟩
      · rw [Multiset.count_cons_self]
        dsimp only
        omega
      · exact fun kp hk => Multiset.count_cons_of_ne hk E
      · intro hpos
        omega
      · intro _ kp _ hkpos heq
        exact hall kp (List.mem_finRange kp) ⟨hkpos, (h.entry kp hkpos).1, heq⟩
      · simp [hnotL]
      · rw [setInode_inode]
      · have hkj : kp ≠ jp := by
          rintro rfl
          omega
        rw [setInode_inode_of_ne hkj]

theorem Walking.ilock (h : Walking sb s E L t) (hpos : 0 < (t.inode ip).ref) (hL : ip ∉ L) :
    wp (Xv6.ilock ip) t
      (fun _ u => Walking sb s E (insert ip L) u ∧ (dinodeAt s.disk (t.inode ip).inum).type ≠ 0 ∧
        (∀ jp, (u.inode jp).inum = (t.inode jp).inum) ∧
        (u.inode ip).din = dinodeAt s.disk (t.inode ip).inum)
      (fun e => e = .panic "ilock: no type" ∧
        (dinodeAt s.disk (t.inode ip).inum).type = 0) := by
  obtain ⟨hdev, -⟩ := h.entry ip hpos
  have hbusy : (t.inode ip).busy = false := by
    have hb := h.busy ip
    simpa [hL] using hb
  have hdone : (dinodeAt s.disk (t.inode ip).inum).type ≠ 0 →
      Walking sb s E (insert ip L) (t.setInode ip { t.inode ip with
        busy := true, valid := true, din := dinodeAt s.disk (t.inode ip).inum }) := by
    intro htype
    refine h.setInode (h.ref ip) (fun _ _ => rfl) (h.same ip) (h.entry ip) ?_
      (fun _ _ => ⟨rfl, htype⟩) (by simp) (fun jp hj => by simp [hj]) (fun _ => ⟨hpos, rfl⟩)
    exact fun _ jp hj hjpos heq => hj (h.uniq jp ip hjpos hpos heq)
  have hinum : ∀ x : Inode, x.inum = (t.inode ip).inum → ∀ jp,
      ((t.setInode ip x).inode jp).inum = (t.inode jp).inum := by
    intro x hx jp
    by_cases hj : jp = ip
    · rw [hj, setInode_inode, hx]
    · rw [setInode_inode_of_ne hj]
  unfold Xv6.ilock
  simp only [wp_bind, wp_inodeAt]
  rw [if_neg (by omega), if_neg (by rw [hbusy]; exact Bool.false_ne_true), wp_bind, wp_modifyInode]
  cases hval : (t.inode ip).valid with
  | true =>
    obtain ⟨hdin, htype⟩ := h.valid ip hpos hval
    rw [hdin] at htype
    rw [if_pos rfl, wp_pure, hdin]
    refine ⟨hdone htype, htype, hinum _ rfl, by rw [setInode_inode]⟩
  | false =>
    have hdisk : ∀ x : Inode, getDinode ((t.setInode ip x).disk (IBLOCK (t.inode ip).inum))
        ((t.inode ip).inum % IPB) = dinodeAt s.disk (t.inode ip).inum := by
      intro x
      rw [← h.disk]
      rfl
    rw [if_neg Bool.false_ne_true]
    simp only [wp_bind, wp_bread_of hdev, wp_modifyInode, setInode_inode, setInode_setInode, hdisk]
    by_cases htype : (dinodeAt s.disk (t.inode ip).inum).type = 0
    · rw [if_pos htype, wp_panic]
      exact ⟨rfl, htype⟩
    · rw [if_neg htype, wp_pure]
      exact ⟨hdone htype, htype, hinum _ rfl, by rw [setInode_inode]⟩

theorem Walking.iunlock (h : Walking sb s E L t) (hip : ip ∈ L) {Q : Unit → Fs → Prop}
    {F : Stop → Prop} (hQ : ∀ u, Walking sb s E (L.erase ip) u →
      (∀ jp, (u.inode jp).inum = (t.inode jp).inum) → Q () u) :
    wp (Xv6.iunlock ip) t Q F := by
  obtain ⟨hpos, -⟩ := h.locked ip hip
  have hbusy := (h.busy ip).mpr hip
  unfold Xv6.iunlock
  simp only [wp_bind, wp_inodeAt]
  rw [if_neg (by rw [hbusy]; simp; omega), wp_modifyInode]
  refine hQ _ (h.setInode (h.ref ip) (fun _ _ => rfl) (h.same ip) (h.entry ip) ?_ (h.valid ip)
    (by simp) (fun jp hj => by simp [hj]) (by simp)) fun jp => ?_
  · exact fun _ jp hj hjpos heq => hj (h.uniq jp ip hjpos hpos heq)
  · by_cases hj : jp = ip
    · rw [hj, setInode_inode]
    · rw [setInode_inode_of_ne hj]

/-- `iput` during a walk drops a reference and frees nothing. -/
theorem Walking.iput (hs : AtRest sb s) (h : Walking sb s (ip ::ₘ E) L t) {Q : Unit → Fs → Prop}
    {F : Stop → Prop}
    (hQ : ∀ u, Walking sb s E L u → (∀ jp, (u.inode jp).inum = (t.inode jp).inum) → Q () u)
    (hL : ip ∉ L) :
    wp (Xv6.iput ip) t Q F := by
  have href := h.ref ip
  have hsref := hs.ref ip
  rw [Multiset.count_cons_self] at href
  have hpos : 0 < (t.inode ip).ref := by omega
  have hkeep : ¬((t.inode ip).ref = 1 ∧ (t.inode ip).valid = true ∧
      (t.inode ip).din.nlink = 0) := by
    rintro ⟨h1, hval, hlink⟩
    obtain ⟨hdin, htype⟩ := h.valid ip hpos hval
    rw [hdin] at htype hlink
    obtain ⟨jp, hjpos, hj⟩ := hs.linked _ (h.entry ip hpos).2 htype hlink
    have hjp : jp = ip := by
      refine h.uniq jp ip ?_ hpos ((h.same jp hjpos).trans hj)
      have hjref := h.ref jp
      omega
    rw [hjp] at hjpos
    omega
  unfold Xv6.iput
  simp only [wp_bind, wp_inodeAt]
  rw [if_neg hkeep, wp_modifyInode]
  refine hQ _ (h.setInode ?_ ?_ (h.same ip) ?_ ?_ ?_ (h.busy ip) (fun _ _ => Iff.rfl)
    (fun hmem => absurd hmem hL)) fun jp => ?_
  · dsimp only
    omega
  · exact fun jp hj => (Multiset.count_cons_of_ne hj E).symm
  · exact fun _ => h.entry ip hpos
  · exact fun _ jp hj hjpos heq => hj (h.uniq jp ip hjpos hpos heq)
  · exact fun _ => h.valid ip hpos
  · by_cases hj : jp = ip
    · rw [hj, setInode_inode]
    · rw [setInode_inode_of_ne hj]

theorem entriesFrom_of_lt {c : List UInt8} {k : ℕ} (hk : k < c.length / DIRENT) :
    entriesFrom c k = (c.drop (k * DIRENT)).take DIRENT :: entriesFrom c (k + 1) := by
  obtain ⟨n, hn⟩ : ∃ n, c.length / DIRENT - k = n + 1 := ⟨c.length / DIRENT - k - 1, by omega⟩
  have hn' : c.length / DIRENT - (k + 1) = n := by omega
  rw [entriesFrom, hn, List.range'_succ, List.map_cons, entriesFrom, hn']

theorem entriesFrom_of_ge {c : List UInt8} {k : ℕ} (hk : c.length / DIRENT ≤ k) :
    entriesFrom c k = [] := by
  rw [entriesFrom, Nat.sub_eq_zero_of_le hk]
  rfl

theorem dirlookupFrom_spec (devsw : Devsw) (name : List UInt8) {F : Stop → Prop}
    (h : Synced sb t ip) (hdir : (t.inode ip).din.type = T_DIR)
    (hmod : (t.inode ip).din.size % DIRENT = 0) {fuel k : ℕ}
    (hfuel : (t.inode ip).din.size / DIRENT < fuel + k) :
    wp (dirlookupFrom devsw ip name fuel (k * DIRENT)) t
      (fun r u => u = t ∧ r.map Prod.fst =
        ((entriesFrom (contents t.disk (t.inode ip).din) k).find? (Matches name)).map deInum)
      F := by
  obtain ⟨n, hn⟩ : ∃ n, (t.inode ip).din.size = n * DIRENT :=
    ⟨_, (Nat.div_mul_cancel (Nat.dvd_of_mod_eq_zero hmod)).symm⟩
  have hpos : 0 < DIRENT := by decide
  have hcap : MAXFILE * BSIZE = 71680 := rfl
  have hD : DIRENT = 16 := rfl
  have hle := h.size_le
  have hlen : (contents t.disk (t.inode ip).din).length / DIRENT = n := by
    rw [length_contents, hn, Nat.mul_div_cancel _ hpos]
  rw [hn, Nat.mul_div_cancel _ hpos] at hfuel
  induction fuel generalizing k with
  | zero =>
    rw [dirlookupFrom, wp_pure, entriesFrom_of_ge (by omega)]
    exact ⟨rfl, rfl⟩
  | succ fuel ih =>
    rw [dirlookupFrom, wp_bind, wp_inodeAt]
    by_cases hk : k < n
    · have hroom : k * DIRENT + DIRENT ≤ (t.inode ip).din.size := by
        rw [hn, ← Nat.succ_mul]
        exact Nat.mul_le_mul_right _ hk
      have hnext := ih (k := k + 1) (by omega)
      rw [Nat.succ_mul] at hnext
      rw [if_pos (by omega), wp_bind, entriesFrom_of_lt (by omega)]
      refine wp_post (readi_spec devsw h.holds h.positions (by rw [hdir]; decide) (k * DIRENT)
        DIRENT) ?_
      rintro ⟨r, de⟩ u ⟨rfl, hr⟩
      rw [if_neg (by omega), min_eq_left (by omega), contents_slice _ _ hroom] at hr
      cases hr
      dsimp only
      rw [if_neg (by simp)]
      by_cases hzero :
          deInum (((contents u.disk (u.inode ip).din).drop (k * DIRENT)).take DIRENT) = 0
      · rw [if_pos hzero, List.find?_cons_of_neg (by simp [Matches, hzero])]
        exact hnext
      · rw [if_neg hzero]
        by_cases hcmp : namecmp name
            (deName (((contents u.disk (u.inode ip).din).drop (k * DIRENT)).take DIRENT)) = 0
        · rw [if_pos hcmp, wp_pure, List.find?_cons_of_pos (by simp [Matches, hzero, hcmp])]
          exact ⟨rfl, rfl⟩
        · rw [if_neg hcmp, List.find?_cons_of_neg (by simp [Matches, hcmp])]
          exact hnext
    · have hend : (t.inode ip).din.size ≤ k * DIRENT := by
        rw [hn]
        exact Nat.mul_le_mul_right _ (by omega)
      rw [if_neg (by omega), wp_pure, entriesFrom_of_ge (by omega)]
      exact ⟨rfl, rfl⟩

theorem Walking.synced (hs : AtRest sb s) (h : Walking sb s E L t) (hip : ip ∈ L) :
    Synced sb t ip := by
  obtain ⟨hpos, hval⟩ := h.locked ip hip
  obtain ⟨hdin, htype⟩ := h.valid ip hpos hval
  obtain ⟨hdev, hlt⟩ := h.entry ip hpos
  exact ⟨by rw [h.disk]; exact hs.disk, hdev, hlt, by rw [h.disk, hdin], htype⟩

theorem Walking.dirlookup (devsw : Devsw) (hs : AtRest sb s) (h : Walking sb s E L t)
    (hip : ip ∈ L) (hdir : (t.inode ip).din.type = T_DIR) :
    wp (Xv6.dirlookup devsw ip name) t
      (fun r u => (r = none ∧ u = t ∧ lookupAt s.disk (t.inode ip).inum name = none) ∨
        ∃ jp off, r = some (jp, off) ∧
          lookupAt s.disk (t.inode ip).inum name = some (u.inode jp).inum ∧
          Walking sb s (jp ::ₘ E) L u ∧
          ∀ kp, 0 < (t.inode kp).ref → (u.inode kp).inum = (t.inode kp).inum)
      (fun e => e = .panic "iget: no inodes" ∧ ∀ kp, (t.inode kp).ref ≠ 0) := by
  have hsync := h.synced hs hip
  have hdin : (t.inode ip).din = dinodeAt s.disk (t.inode ip).inum := by rw [hsync.din, h.disk]
  obtain ⟨hmod, hlt⟩ := hs.dirs _ hsync.lt (by rw [← hdin]; exact hdir)
  rw [← hdin] at hmod
  have hlook : lookupAt s.disk (t.inode ip).inum name =
      entryIn (contents t.disk (t.inode ip).din) name := by
    rw [lookupAt, ← hdin, if_pos hdir, h.disk]
  unfold Xv6.dirlookup
  rw [wp_bind, wp_inodeAt, if_neg (by rw [hdir]; simp), wp_bind]
  have hloop := dirlookupFrom_spec (k := 0)
    (F := fun e => e = .panic "iget: no inodes" ∧ ∀ kp, (t.inode kp).ref ≠ 0) devsw name hsync hdir
    hmod (Nat.lt_succ_self _)
  rw [Nat.zero_mul] at hloop
  refine wp_post hloop ?_
  rintro r u ⟨rfl, hr⟩
  rw [← entryIn] at hr
  rw [hlook, ← hr]
  cases r with
  | none =>
    dsimp only
    rw [wp_pure]
    exact Or.inl ⟨rfl, rfl, rfl⟩
  | some q =>
    obtain ⟨inum, off⟩ := q
    have hinum : inum < sb.ninodes := by
      refine hlt name inum ?_
      rw [← hdin, ← h.disk, ← hr]
      rfl
    dsimp only
    rw [hsync.dev]
    refine wp_seq (h.iget hs.ref hinum) ?_
    rintro jp u' ⟨hw, hj, hother⟩
    rw [wp_pure]
    refine Or.inr ⟨jp, off, rfl, ?_, hw, hother⟩
    rw [hj]
    rfl

/-- The panics that can end a walk. -/
def WalkStop (s : Fs) (i : ℕ) (names : List (List UInt8)) (e : Stop) : Prop :=
  (e = .panic "iget: no inodes" ∧ Scarce s) ∨ (e = .panic "ilock: no type" ∧ Dead s.disk i names)

def heldRef (r : Option (InodeId × List UInt8)) : Multiset InodeId := r.elim 0 fun q => {q.1}

theorem Dead.head {d : Disk} {names : List (List UInt8)} (h : (dinodeAt d i).type = 0) :
    Dead d i (name :: names) :=
  ⟨0, Nat.succ_pos _, i, rfl, h⟩

theorem Dead.tail {d : Disk} {names : List (List UInt8)} {j : ℕ}
    (hj : lookupAt d i name = some j) (h : Dead d j names) : Dead d i (name :: names) := by
  obtain ⟨k, hk, j', hres, htype⟩ := h
  refine ⟨k + 1, Nat.succ_lt_succ hk, j', ?_, htype⟩
  rw [List.take_succ_cons, resolve, List.foldlM_cons, hj]
  exact hres

theorem Walking.iunlockput (hs : AtRest sb s) (h : Walking sb s (ip ::ₘ E) L t) (hip : ip ∈ L)
    {Q : Unit → Fs → Prop} {F : Stop → Prop} (hQ : ∀ u, Walking sb s E (L.erase ip) u →
      (∀ jp, (u.inode jp).inum = (t.inode jp).inum) → Q () u) :
    wp (Xv6.iunlockput ip) t Q F := by
  unfold Xv6.iunlockput
  rw [wp_bind]
  refine h.iunlock hip fun u hu hinum => hu.iput hs (fun u' hu' hinum' => ?_) (by simp)
  exact hQ u' hu' fun jp => (hinum' jp).trans (hinum jp)

theorem namexFrom_spec (devsw : Devsw) (hs : AtRest sb s) (parent : Bool) {fuel : ℕ}
    {path : List UInt8} (h : Walking sb s {ip} ∅ t) (hfuel : path.length < fuel) :
    wp (namexFrom devsw parent fuel ip path) t
      (fun r u => r.map (fun q => ((u.inode q.1).inum, q.2)) =
          walkNames s.disk parent (t.inode ip).inum (components path) ∧
        Walking sb s (heldRef r) ∅ u)
      (WalkStop s (t.inode ip).inum (components path)) := by
  induction fuel generalizing ip t path with
  | zero => exact absurd hfuel (Nat.not_lt_zero _)
  | succ fuel ih =>
    have hpos : 0 < (t.inode ip).ref := by
      have href := h.ref ip
      have hsref := hs.ref ip
      rw [Multiset.count_singleton_self] at href
      omega
    rw [namexFrom]
    rcases skipelem_spec path with ⟨hskip, hcomp⟩ | ⟨name, rest, hskip, hcomp, hrest, hlen⟩
    · rw [hskip, hcomp, walkNames]
      dsimp only
      cases parent with
      | true =>
        rw [if_pos rfl, if_pos rfl, wp_bind]
        refine Walking.iput hs h (fun u hu _ => ?_) (by simp)
        rw [wp_pure]
        exact ⟨rfl, hu⟩
      | false =>
        rw [if_neg Bool.false_ne_true, if_neg Bool.false_ne_true, wp_pure]
        exact ⟨rfl, h⟩
    · rw [hskip, hcomp, walkNames]
      dsimp only
      have hin : ip ∈ insert ip (∅ : Finset InodeId) := Finset.mem_insert_self ..
      have hout : (insert ip (∅ : Finset InodeId)).erase ip = ∅ := by simp
      refine wp_seq (wp_mono (h.ilock hpos (Finset.notMem_empty ip)) (fun _ _ hq => hq) ?_) ?_
      · rintro e ⟨he, htype⟩
        exact Or.inr ⟨he, Dead.head htype⟩
      rintro _ t₁ ⟨h₁, -, hinum₁, hdin₁⟩
      rw [wp_bind, wp_inodeAt, hdin₁]
      by_cases hdir : (dinodeAt s.disk (t.inode ip).inum).type ≠ T_DIR
      · rw [if_pos hdir, if_pos hdir, wp_bind]
        refine Walking.iunlockput hs h₁ hin fun u hu _ => ?_
        rw [wp_pure]
        exact ⟨rfl, hout ▸ hu⟩
      · have hlast : (parent = true ∧ rest = []) ↔ (parent = true ∧ components rest = []) := by
          rw [components_eq_nil hrest]
        rw [if_neg hdir, if_neg hdir]
        by_cases hend : parent = true ∧ rest = []
        · rw [if_pos hend, if_pos (hlast.mp hend), wp_bind]
          refine h₁.iunlock hin fun u hu hinum => ?_
          rw [wp_pure]
          refine ⟨?_, hout ▸ hu⟩
          rw [Option.map_some, hinum, hinum₁]
        · rw [if_neg hend, if_neg (mt hlast.mpr hend)]
          refine wp_seq (wp_mono (h₁.dirlookup devsw hs hin
            (by rw [hdin₁]; exact not_not.mp hdir)) (fun _ _ hq => hq)
            fun e he => Or.inl ⟨he.1, h₁.scarce (by simp) he.2⟩) ?_
          rw [hinum₁]
          rintro r t₂ (⟨rfl, rfl, hnone⟩ | ⟨jp, off, rfl, hsome, h₂, -⟩)
          · dsimp only
            rw [wp_bind, hnone]
            refine Walking.iunlockput hs h₁ hin fun u hu _ => ?_
            rw [wp_pure]
            exact ⟨rfl, hout ▸ hu⟩
          · dsimp only
            rw [wp_bind]
            rw [← Multiset.singleton_add, add_comm, Multiset.singleton_add] at h₂
            refine Walking.iunlockput hs h₂ hin fun t₃ h₃ hinum₃ => ?_
            rw [hout] at h₃
            have hrec := ih h₃ (show rest.length < fuel by omega)
            rw [hinum₃] at hrec
            rw [hsome, Option.bind_some]
            refine wp_mono hrec (fun _ _ hq => hq) ?_
            rintro e (he | ⟨he, hdead⟩)
            · exact Or.inl he
            · exact Or.inr ⟨he, hdead.tail hsome⟩

def startOf (s : Fs) (q : Proc) (path : List UInt8) : ℕ :=
  if path.head? = some 47 then ROOTINO else (s.inode q.cwd).inum

theorem namex_spec {p : Fin NPROC} {q : Proc} (devsw : Devsw) (hs : AtRest sb s)
    (hroot : ROOTINO < sb.ninodes) (hq : s.proc p = some q) (hcwd : 0 < (s.inode q.cwd).ref)
    (path : List UInt8) (parent : Bool) :
    wp (namex devsw p path parent) s
      (fun r t => r.map (fun q => ((t.inode q.1).inum, q.2)) =
          walkNames s.disk parent (startOf s q path) (components path) ∧
        Walking sb s (heldRef r) ∅ t)
      (WalkStop s (startOf s q path) (components path)) := by
  have hloop : ∀ ip t, Walking sb s {ip} ∅ t → (t.inode ip).inum = startOf s q path →
      wp (namexFrom devsw parent (path.length + 1) ip path) t
        (fun r t => r.map (fun q => ((t.inode q.1).inum, q.2)) =
            walkNames s.disk parent (startOf s q path) (components path) ∧
          Walking sb s (heldRef r) ∅ t)
        (WalkStop s (startOf s q path) (components path)) := by
    intro ip t ht hinum
    rw [← hinum]
    exact namexFrom_spec devsw hs parent ht (Nat.lt_succ_self _)
  unfold namex
  by_cases hslash : path.head? = some 47
  · rw [if_pos hslash]
    refine wp_seq (wp_mono (hs.walking.iget hs.ref hroot) (fun _ _ hq => hq)
      fun e he => Or.inl ⟨he.1, hs.walking.scarce (by simp) he.2⟩) ?_
    rintro ip t ⟨ht, hinum, -⟩
    exact hloop ip t ht (by rw [startOf, if_pos hslash, hinum])
  · rw [if_neg hslash]
    unfold myproc idup
    simp only [wp_bind, wp_get, hq, wp_pure, wp_modifyInode]
    refine hloop q.cwd _ (hs.walking.setInode ?_ ?_ (fun _ => rfl) (fun _ => hs.entry _ hcwd) ?_
      (fun _ => hs.valid _ hcwd) (by simp [hs.idle]) (fun _ _ => Iff.rfl) (by simp)) ?_
    · rw [Multiset.count_singleton_self]
      rfl
    · exact fun jp hj => by rw [Multiset.count_singleton, if_neg hj, Multiset.count_zero]
    · exact fun _ jp hj hjpos heq => hj (hs.uniq jp _ hjpos hcwd heq)
    · rw [setInode_inode, startOf, if_neg hslash]

theorem walkNames_false (d : Disk) (i : ℕ) (names : List (List UInt8)) :
    walkNames d false i names = (resolve d i names).map (·, []) := by
  induction names generalizing i with
  | nil => rfl
  | cons name names ih =>
    rw [walkNames, resolve, List.foldlM_cons]
    by_cases hdir : (dinodeAt d i).type ≠ T_DIR
    · rw [if_pos hdir, lookupAt, if_neg hdir]
      rfl
    · rw [if_neg hdir, if_neg (by simp)]
      cases hlook : lookupAt d i name with
      | none => rfl
      | some j => exact ih j

theorem walkNames_true (d : Disk) (i : ℕ) (names : List (List UInt8)) :
    walkNames d true i names = resolveParent d i names := by
  induction names generalizing i with
  | nil => rfl
  | cons name names ih =>
    rw [walkNames]
    cases names with
    | nil =>
      by_cases hdir : (dinodeAt d i).type ≠ T_DIR
      · rw [if_pos hdir]
        simp [resolveParent, resolve, hdir]
      · rw [if_neg hdir, if_pos ⟨rfl, rfl⟩]
        simp [resolveParent, resolve, not_not.mp hdir]
    | cons name' names =>
      have hparent : resolveParent d i (name :: name' :: names) =
          (lookupAt d i name).bind fun j => resolveParent d j (name' :: names) := by
        unfold resolveParent resolve
        rw [List.getLast?_cons_cons, List.dropLast_cons_cons, List.foldlM_cons]
        cases lookupAt d i name with
        | none => simp
        | some j => rfl
      rw [hparent]
      by_cases hdir : (dinodeAt d i).type ≠ T_DIR
      · rw [if_pos hdir, lookupAt, if_neg hdir, Option.bind_none]
      · rw [if_neg hdir, if_neg (by simp)]
        exact Option.bind_congr fun j _ => ih j

/-- Slashes matter only at the beginning of a path. -/
theorem namexFrom_congr (devsw : Devsw) (parent : Bool) {fuel fuel' : ℕ} {path path' : List UInt8}
    (hfuel : path.length < fuel) (hfuel' : path'.length < fuel')
    (h : components path' = components path) (ip : InodeId) :
    namexFrom devsw parent fuel' ip path' = namexFrom devsw parent fuel ip path := by
  induction fuel generalizing fuel' path path' ip with
  | zero => exact absurd hfuel (Nat.not_lt_zero _)
  | succ fuel ih =>
    obtain ⟨fuel', rfl⟩ : ∃ n, fuel' = n + 1 := ⟨fuel' - 1, by omega⟩
    rw [namexFrom, namexFrom]
    rcases skipelem_spec path with ⟨hskip, hcomp⟩ | ⟨name, rest, hskip, hcomp, hrest, hlen⟩
    · rcases skipelem_spec path' with ⟨hskip', -⟩ | ⟨name', rest', -, hcomp', -⟩
      · rw [hskip, hskip']
      · rw [h, hcomp] at hcomp'
        cases hcomp'
    · rcases skipelem_spec path' with ⟨-, hcomp'⟩ | ⟨name', rest', hskip', hcomp', hrest', hlen'⟩
      · rw [h, hcomp] at hcomp'
        cases hcomp'
      · rw [h, hcomp, List.cons.injEq] at hcomp'
        obtain ⟨rfl, hrests⟩ := hcomp'
        have hnil : (rest' = []) = (rest = []) := by
          rw [← components_eq_nil hrest, ← components_eq_nil hrest', hrests]
        have hrec : ∀ jp, namexFrom devsw parent fuel' jp rest' =
            namexFrom devsw parent fuel jp rest :=
          fun jp => ih (by omega) (by omega) hrests.symm jp
        rw [hskip, hskip']
        dsimp only
        simp only [hnil, hrec]

/-- Only the components of a path and where it starts matter. -/
theorem namex_congr (devsw : Devsw) (p : Fin NPROC) (parent : Bool) {path path' : List UInt8}
    (hslash : path'.head? = some 47 ↔ path.head? = some 47)
    (hcomp : components path' = components path) :
    namex devsw p path' parent = namex devsw p path parent := by
  have hloop : ∀ ip, namexFrom devsw parent (path'.length + 1) ip path' =
      namexFrom devsw parent (path.length + 1) ip path :=
    namexFrom_congr devsw parent (Nat.lt_succ_self _) (Nat.lt_succ_self _) hcomp
  unfold namex
  simp only [hloop, hslash]

/-- The result carries one new reference, and nothing else has changed. -/
structure Referenced (s : Fs) (r : Option InodeId) (t : Fs) : Prop where
  disk : t.disk = s.disk
  ref : ∀ ip, (t.inode ip).ref = (s.inode ip).ref + if r = some ip then 1 else 0
  busy : ∀ ip, (t.inode ip).busy = (s.inode ip).busy

theorem Walking.referenced (hs : AtRest sb s) {r : Option (InodeId × List UInt8)}
    (h : Walking sb s (heldRef r) ∅ t) : Referenced s (r.map Prod.fst) t := by
  refine ⟨h.disk, fun ip => ?_, fun ip => ?_⟩
  · rw [h.ref ip]
    cases r with
    | none => rfl
    | some q =>
      rw [heldRef, Option.elim_some, Multiset.count_singleton, Option.map_some]
      by_cases hq : ip = q.1
      · rw [if_pos hq, if_pos (by rw [hq])]
        rfl
      · rw [if_neg hq, if_neg fun hc => hq (Option.some.inj hc).symm]
        rfl
  · have hb := h.busy ip
    rw [hs.idle ip]
    simpa using hb

/-- Path names are resolved component by component. -/
theorem namex_fold {p : Fin NPROC} {q : Proc} (devsw : Devsw) (hs : AtRest sb s)
    (hroot : ROOTINO < sb.ninodes) (hq : s.proc p = some q) (hcwd : 0 < (s.inode q.cwd).ref)
    (path : List UInt8) :
    wp (namei devsw p path) s
      (fun r t => r.map (fun ip => (t.inode ip).inum) =
          resolve s.disk (startOf s q path) (components path) ∧ Referenced s r t)
      (WalkStop s (startOf s q path) (components path)) ∧
    wp (nameiparent devsw p path) s
      (fun r t => r.map (fun x => ((t.inode x.1).inum, x.2)) =
          resolveParent s.disk (startOf s q path) (components path) ∧
        Referenced s (r.map Prod.fst) t)
      (WalkStop s (startOf s q path) (components path)) ∧
    (∀ name, name.length = DIRSIZ →
      skipelemInto path name = (skipelem path).map fun x => (storeName x.1 name, x.2)) ∧
    (∀ parent ip fuel, path.length < fuel → namexFrom devsw parent fuel ip path =
      namexFrom devsw parent (path.length + 1) ip path) ∧
    ∀ parent k,
      (∀ w l, path = w ++ 47 :: l → namex devsw p (w ++ List.replicate k 47 ++ 47 :: l) parent =
        namex devsw p path parent) ∧
      (path ≠ [] → namex devsw p (path ++ List.replicate k 47) parent =
        namex devsw p path parent) := by
  refine ⟨?_, ?_, fun name hname => skipelemInto_eq path hname, fun parent ip fuel hfuel =>
    namexFrom_congr devsw parent (Nat.lt_succ_self _) hfuel rfl ip, fun parent k => ⟨?_, ?_⟩⟩
  · unfold namei
    refine wp_seq (namex_spec devsw hs hroot hq hcwd path false) ?_
    rintro r t ⟨hr, ht⟩
    rw [wp_pure]
    rw [walkNames_false] at hr
    refine ⟨?_, ht.referenced hs⟩
    have hfst := congrArg (Option.map Prod.fst) hr
    rw [Option.map_map, Option.map_map] at hfst
    rw [Option.map_map]
    exact hfst.trans Option.map_id'
  · unfold nameiparent
    refine wp_post (namex_spec devsw hs hroot hq hcwd path true) ?_
    rintro r t ⟨hr, ht⟩
    rw [walkNames_true] at hr
    exact ⟨hr, ht.referenced hs⟩
  · rintro w l rfl
    refine namex_congr devsw p parent ?_ (components_slashes w l k)
    cases w with
    | nil => cases k <;> simp [List.replicate_succ]
    | cons c w => simp
  · intro hne
    refine namex_congr devsw p parent ?_ (components_trailing path k)
    rw [List.head?_append_of_ne_nil _ hne]

end walking

def emptyDir : Dinode := { Dinode.zero with type := T_DIR, nlink := 1 }

/-- A disk on which the root and inode 2 are empty directories. -/
def twoDirs : Disk := storeInode (formatted emptyDir) 2 emptyDir

/-- The root is the current directory. -/
def atRoot : Fs :=
  { (Fs.boot twoDirs).setInode 0 ⟨ROOTDEV, ROOTINO, 1, false, true, emptyDir⟩ with
    proc := fun _ => some ⟨fun _ => none, 0⟩ }

theorem emptyDir_fits : emptyDir.Fits := by
  constructor <;> decide

theorem dinodeAt_twoDirs {i : ℕ} (hi : i < mkfsSb.ninodes) :
    dinodeAt twoDirs i = if i = ROOTINO ∨ i = 2 then emptyDir else Dinode.zero := by
  rw [twoDirs, dinodeAt_storeInode, Dinode.wrap_of_fits emptyDir_fits,
    dinodeAt_formatted emptyDir_fits hi]
  by_cases h2 : i = 2 <;> simp [h2]

theorem wellFormed_twoDirs : WellFormed mkfsSb twoDirs := by
  have hbits : SameBits mkfsSb (formatted emptyDir) twoDirs := sameBits_storeInode (by decide)
  refine wellFormed_of_no_blocks ?_ (fun b hb => ?_) (fun i hi => ?_) fun i hi => ?_
  · rw [hbits.superblock]
    exact Mkfs.getSb_sbBlock
  · rw [hbits.bits b hb, used_formatted _ hb]
  · rw [dinodeAt_twoDirs hi]
    split_ifs <;> rfl
  · rw [dinodeAt_twoDirs hi]
    split_ifs <;> rfl

theorem synced_atRoot : Synced mkfsSb atRoot 0 :=
  ⟨wellFormed_twoDirs, rfl, by decide,
    ((dinodeAt_twoDirs (by decide)).trans (if_pos (Or.inl rfl))).symm, by decide⟩

theorem free_atRoot : 0 < freeCount mkfsSb atRoot.disk := by
  refine freeCount_pos (b := 29) (by decide) ?_
  rw [show atRoot.disk = twoDirs from rfl, twoDirs,
    (sameBits_storeInode (by decide)).bits 29 (by decide), used_formatted _ (by decide)]
  decide

theorem dirlink_atRoot : wp (dirlink noDevices 0 [97] 2) atRoot
    (fun r t => r = 0 ∧ WriteDone mkfsSb 0 0 (dirent 2 [97]) atRoot t) fun _ => False := by
  have hlookup : dirlookup noDevices 0 [97] atRoot = .ok none atRoot := rfl
  have hend : dirFreeFrom noDevices 0 ((atRoot.inode 0).din.size / DIRENT + 1) 0 atRoot =
    .ok 0 atRoot := rfl
  have hfree := free_atRoot
  have hneed : nslots (nblk (max (atRoot.inode 0).din.size (0 + (dirent 2 [97]).length))) = 1 := by
    decide
  unfold dirlink
  rw [wp_bind, wp_of_eq hlookup]
  dsimp only
  rw [wp_bind, wp_inodeAt, wp_bind, wp_of_eq hend]
  refine wp_seq (wp_mono (writei_spec noDevices synced_atRoot (by decide) (dirent 2 [97]) 0)
    (fun _ _ h => h) fun e he => ?_) fun r t h => ?_
  · have hlt := he.2.2
    omega
  · rw [if_neg (by decide)] at h
    obtain ⟨rfl, hw⟩ := h
    rw [if_neg (by decide), wp_pure]
    exact ⟨rfl, hw⟩

theorem entryIn_dirent {name : List UInt8} {j : ℕ}
    (h : entryIn (dirent 2 [97]) name = some j) : j = 2 := by
  have hentries : entriesFrom (dirent 2 [97]) 0 = [dirent 2 [97]] := by decide
  rw [entryIn, hentries] at h
  obtain ⟨de, hde, rfl⟩ := Option.map_eq_some_iff.mp h
  rw [List.mem_singleton.mp (List.mem_of_find?_eq_some hde)]
  decide

section linked

variable {t : Fs} (hw : WriteDone mkfsSb 0 0 (dirent 2 [97]) atRoot t)

include hw

theorem inode_linked (ip : InodeId) :
    t.inode ip = if ip = 0 then ⟨ROOTDEV, ROOTINO, 1, false, true, (t.inode 0).din⟩
      else ⟨0, 0, 0, false, false, Dinode.zero⟩ := by
  split_ifs with h0
  · rw [h0, hw.touches.entry]
    rfl
  · rw [hw.touches.others ip h0]
    exact setInode_inode_of_ne (s := Fs.boot twoDirs) h0 _

theorem cached_linked {ip : InodeId} (h : 0 < (t.inode ip).ref) : ip = 0 := by
  rw [inode_linked hw] at h
  split_ifs at h with h0
  · exact h0
  · exact absurd h (lt_irrefl 0)

theorem dinodeAt_linked {i : ℕ} (hi : i < mkfsSb.ninodes) :
    i = ROOTINO ∧ (dinodeAt t.disk i).type = T_DIR ∧ (dinodeAt t.disk i).nlink = 1 ∧
      contents t.disk (dinodeAt t.disk i) = dirent 2 [97] ∨
    i ≠ ROOTINO ∧ dinodeAt t.disk i = if i = 2 then emptyDir else Dinode.zero := by
  by_cases h1 : i = ROOTINO
  · have hinum : (t.inode 0).inum = ROOTINO := by
      rw [inode_linked hw, if_pos rfl]
    have hdin : dinodeAt t.disk i = (t.inode 0).din := by
      rw [hw.synced.din, hinum, h1]
    refine Or.inl ⟨h1, ?_, ?_, ?_⟩
    · rw [hdin, hw.head]
      rfl
    · rw [hdin, hw.head]
      rfl
    · rw [hdin, hw.contents]
      rfl
  · refine Or.inr ⟨h1, ?_⟩
    rw [hw.dinodes i hi h1]
    exact (dinodeAt_twoDirs hi).trans (by simp [h1])

theorem atRest_linked : AtRest mkfsSb t := by
  refine ⟨hw.synced.disk, ?_, ?_, ?_, ?_, ?_, ?_, ?_⟩
  · intro ip h
    rw [cached_linked hw h]
    exact ⟨hw.synced.dev, hw.synced.lt⟩
  · intro ip jp hi hj _
    rw [cached_linked hw hi, cached_linked hw hj]
  · intro ip h _
    rw [cached_linked hw h]
    exact ⟨hw.synced.din, hw.synced.type⟩
  · intro ip
    rw [inode_linked hw]
    split_ifs <;> rfl
  · intro ip
    rw [inode_linked hw]
    split_ifs
    · exact zero_le_one
    · exact le_rfl
  · intro i hi htype hnlink
    obtain ⟨-, -, h1, -⟩ | ⟨-, h2⟩ := dinodeAt_linked hw hi
    · omega
    · rw [h2] at htype hnlink
      split_ifs at htype hnlink
      · exact absurd hnlink (by decide)
      · exact absurd rfl htype
  · intro i hi htype
    obtain ⟨-, -, -, h1⟩ | ⟨-, h2⟩ := dinodeAt_linked hw hi
    · have hsize : (dinodeAt t.disk i).size = DIRENT := by
        rw [← length_contents t.disk, h1]
        rfl
      rw [h1, hsize]
      exact ⟨rfl, fun name j hj => by rw [entryIn_dirent hj]; decide⟩
    · rw [h2] at htype ⊢
      split_ifs at htype ⊢
      · refine ⟨rfl, fun name j hj => ?_⟩
        have hempty : contents t.disk emptyDir = [] := rfl
        rw [hempty] at hj
        exact absurd hj (by simp [entryIn, entriesFrom])
      · exact absurd htype (by decide)

theorem not_scarce_linked : ¬ Scarce t := by
  have hsub : ({1, 2} : Finset InodeId) ⊆
      Finset.univ.filter fun ip => (t.inode ip).ref = 0 := by
    intro ip hip
    rw [Finset.mem_filter, inode_linked hw, if_neg (by rintro rfl; exact absurd hip (by decide))]
    exact ⟨Finset.mem_univ _, rfl⟩
  exact not_lt.mpr (Finset.card_le_card hsub)

theorem resolve_linked :
    resolve t.disk ROOTINO [[97]] = some 2 ∧ (dinodeAt t.disk ROOTINO).type = T_DIR ∧
      (dinodeAt t.disk 2).type = T_DIR := by
  obtain ⟨-, htype, -, hcont⟩ | ⟨hne, -⟩ := dinodeAt_linked hw (i := ROOTINO) (by decide)
  · obtain ⟨h2, -⟩ | ⟨-, h2⟩ := dinodeAt_linked hw (i := 2) (by decide)
    · exact absurd h2 (by decide)
    · refine ⟨?_, htype, by rw [h2, if_pos rfl]; rfl⟩
      rw [resolve, List.foldlM_cons, lookupAt, if_pos htype, hcont]
      rfl
  · exact absurd rfl hne

/-- No walk that looks for `a` and at most one name below it panics. -/
theorem not_walkStop_linked {rest : List (List UInt8)} (hrest : rest.length ≤ 1) (e : Stop) :
    ¬WalkStop t ROOTINO ([97] :: rest) e := by
  obtain ⟨hres, hroot, htwo⟩ := resolve_linked hw
  rintro (⟨-, hfull⟩ | ⟨-, k, hk, j, hj, hfree⟩)
  · exact not_scarce_linked hw hfull
  · rw [List.length_cons] at hk
    obtain rfl | rfl : k = 0 ∨ k = 1 := by omega
    · obtain rfl := Option.some.inj hj
      exact absurd (hroot.symm.trans hfree) (by decide)
    · obtain rfl := Option.some.inj (hres.symm.trans hj)
      exact absurd (htwo.symm.trans hfree) (by decide)

end linked

/-- With the entry `a` for inode 2 in the root directory, `//a/` names that inode, which is also the
parent that `/a//b/` names. -/
theorem namex_fold_entry : ∃ t, dirlink noDevices 0 [97] 2 atRoot = .ok 0 t ∧
    wp (namei noDevices 0 [47, 47, 97, 47]) t
      (fun r u => r.map (fun ip => (u.inode ip).inum) = some 2 ∧ Referenced t r u)
      (fun _ => False) ∧
    wp (nameiparent noDevices 0 [47, 97, 47, 47, 98, 47]) t
      (fun r u => r.map (fun x => ((u.inode x.1).inum, x.2)) = some (2, [98]) ∧
        Referenced t (r.map Prod.fst) u) (fun _ => False) := by
  obtain ⟨r, t, hlink, rfl, hw⟩ := wp_total dirlink_atRoot
  obtain ⟨hres, -, htwo⟩ := resolve_linked hw
  have hproc : t.proc 0 = some ⟨fun _ => none, 0⟩ := by
    rw [hw.touches.proc]
    rfl
  have hcwd : 0 < (t.inode 0).ref := by
    rw [inode_linked hw, if_pos rfl]
    exact one_pos
  have hfold := namex_fold noDevices (atRest_linked hw) (by decide) hproc hcwd
  have hcomp : components [47, 47, 97, 47] = [[97]] := by decide
  have hcomp' : components [47, 97, 47, 47, 98, 47] = [[97], [98]] := by decide
  refine ⟨t, hlink, ?_, ?_⟩
  · have hnamei := (hfold [47, 47, 97, 47]).1
    rw [hcomp] at hnamei
    exact wp_mono hnamei (fun r u h => ⟨h.1.trans hres, h.2⟩) (not_walkStop_linked hw (by decide))
  · have hparent := (hfold [47, 97, 47, 47, 98, 47]).2.1
    rw [hcomp'] at hparent
    refine wp_mono hparent (fun r u h => ⟨h.1.trans ?_, h.2⟩) (not_walkStop_linked hw (by decide))
    change (Option.filter _ (resolve t.disk ROOTINO [[97]])).map _ = _
    rw [hres, Option.filter_some, if_pos (decide_eq_true htwo)]
    rfl

end Xv6
