import Mathlib.Algebra.Group.Pi.Basic
import Mathlib.Tactic.Abel
import Xv6.Fs.CacheSpec
import Xv6.Fs.Path
import Xv6.Fs.Sysfile

/-! What the operations on inodes do to the references and the locks of the inode cache, on every
disk and for every outcome. -/
namespace Xv6
open Prog

namespace Refs

variable {α β ι : Type} {L L' M : Set InodeId} {s : Fs}

def held [DecidableEq ι] (o : Option ι) : ι → ℤ := fun i => if o = some i then 1 else 0

@[simp] theorem held_none [DecidableEq ι] : held (none : Option ι) = 0 := rfl

/-- Only inodes of `L` are locked. -/
def Locked (s : Fs) (L : Set InodeId) : Prop := ∀ ip, (s.inode ip).busy = true → ip ∈ L

/-- The references to each inode. -/
def refs (s : Fs) : InodeId → ℤ := fun ip => (s.inode ip).ref

/-- If only `L` is locked before, the program leaves the open files and the processes alone, changes
the references by `γ` and leaves only `L'` locked; or it does not return. -/
def Does (L : Set InodeId) (m : FsM α) (γ : α → InodeId → ℤ) (L' : α → Set InodeId) : Prop :=
  ∀ s, Locked s L → wp m s (fun a t => (t.file = s.file ∧ t.proc = s.proc) ∧
    refs t = refs s + γ a ∧ Locked t (L' a)) fun _ => True

class Keeps (m : FsM α) : Prop where
  does : ∀ L, Does L m (fun _ => 0) fun _ => L

section rules

variable {m : FsM α} {f : α → FsM β} {γ δ : α → InodeId → ℤ} {η : β → InodeId → ℤ}
  {N : α → Set InodeId} {R : β → Set InodeId}

theorem Does.bind (hm : Does L m δ N) (hf : ∀ a, Does (N a) (f a) (fun b => η b - δ a) R) :
    Does L (m >>= f) η R := by
  intro s hs
  refine wp_seq (hm s hs) fun a t ht => wp_post (hf a t ht.2.2) fun b u hu => ?_
  refine ⟨⟨hu.1.1.trans ht.1.1, hu.1.2.trans ht.1.2⟩, ?_, hu.2.2⟩
  rw [hu.2.1, ht.2.1, add_assoc, add_sub_cancel]

theorem Does.pure {a : α} (hγ : γ a = 0) (hL : L ⊆ N a) : Does L (pure a : FsM α) γ N := by
  intro s hs
  rw [wp_pure, hγ, add_zero]
  exact ⟨⟨rfl, rfl⟩, rfl, fun ip hip => hL (hs ip hip)⟩

theorem Does.stop (e : Stop) : Does L (Prog.stop e) γ N := by
  intro s _
  rw [wp_stop]
  trivial

theorem Does.from (h : Does M m δ N) (hL : L ⊆ M) (hγ : ∀ a, δ a = γ a) : Does L m γ N := by
  intro s hs
  refine wp_post (h s fun ip hip => hL (hs ip hip)) fun a t ht => ?_
  exact ⟨ht.1, hγ a ▸ ht.2.1, ht.2.2⟩

theorem Does.after [h : Keeps m] (hf : ∀ a, Does L (f a) η R) : Does L (m >>= f) η R := by
  refine (h.does L).bind fun a => ?_
  simp only [sub_zero]
  exact hf a

instance keeps_bind [Keeps m] [h : ∀ a, Keeps (f a)] : Keeps (m >>= f) :=
  ⟨fun L => Does.after fun a => (h a).does L⟩

instance keeps_pure (a : α) : Keeps (pure a : FsM α) := ⟨fun _ => Does.pure rfl subset_rfl⟩

instance keeps_stop (e : Stop) : Keeps (Prog.stop e : FsM α) := ⟨fun _ => Does.stop e⟩

instance keeps_panic (msg : String) : Keeps (panic msg : FsM α) := keeps_stop _

instance keeps_get : Keeps (Prog.get : FsM Fs) := by
  refine ⟨fun L s hs => ?_⟩
  rw [wp_get, add_zero]
  exact ⟨⟨rfl, rfl⟩, rfl, hs⟩

instance keeps_ite {p : Prop} [Decidable p] {m' : FsM α} [h : Keeps m] [k : Keeps m'] :
    Keeps (if p then m else m') := by
  split_ifs
  · exact h
  · exact k

instance keeps_forM {l : List α} {g : α → FsM PUnit} [h : ∀ a, Keeps (g a)] : Keeps (l.forM g) := by
  induction l with
  | nil => exact keeps_pure _
  | cons a l ih => exact keeps_bind (h := fun _ => ih)

theorem keeps_modify {g : Fs → Fs} (hfile : ∀ s, (g s).file = s.file)
    (hproc : ∀ s, (g s).proc = s.proc) (hinode : ∀ s, (g s).inode = s.inode) :
    Keeps (Prog.modify g) := by
  refine ⟨fun L s hs => ?_⟩
  rw [wp_modify, add_zero]
  refine ⟨⟨hfile s, hproc s⟩, funext fun ip => ?_, fun ip hip => hs ip ?_⟩
  · rw [refs, hinode, refs]
  · rwa [hinode] at hip

end rules

section inodes

variable {ip : InodeId}

instance (sector : ℕ) (b : Block) : Keeps (logWrite sector b) :=
  keeps_modify (fun _ => rfl) (fun _ => rfl) fun _ => rfl

instance : Keeps beginOp := keeps_modify (fun _ => rfl) (fun _ => rfl) fun _ => rfl

instance : Keeps endOp := keeps_modify (fun _ => rfl) (fun _ => rfl) fun _ => rfl

instance (dev sector : ℕ) : Keeps (bread dev sector) := by
  unfold bread
  infer_instance

instance (dev : ℕ) : Keeps (readsb dev) := by
  unfold readsb
  infer_instance

instance (sb : Superblock) (dev fuel b : ℕ) : Keeps (ballocFrom sb dev fuel b) := by
  induction fuel generalizing b with
  | zero => exact keeps_panic _
  | succ fuel ih =>
    unfold ballocFrom bzero
    refine keeps_ite (h := keeps_bind (h := fun bp => ?_))
    split <;> infer_instance

instance (dev : ℕ) : Keeps (balloc dev) := by
  unfold balloc
  infer_instance

instance (dev b : ℕ) : Keeps (bfree dev b) := by
  unfold bfree
  infer_instance

instance (ip : InodeId) : Keeps (inodeAt ip) := by
  unfold inodeAt
  infer_instance

theorem does_modifyInode {g : Inode → Inode} {k : ℤ} (href : ∀ i, (g i).ref = i.ref + k)
    (hother : ∀ jp ∈ L, jp ≠ ip → jp ∈ M)
    (hself : ∀ i, (g i).busy = true → (i.busy = true → ip ∈ L) → ip ∈ M) :
    Does L (modifyInode ip g) (fun _ jp => k * held (some ip) jp) fun _ => M := by
  intro s hs
  rw [modifyInode, wp_modify]
  refine ⟨⟨rfl, rfl⟩, funext fun jp => ?_, fun jp hjp => ?_⟩
  · by_cases hj : jp = ip
    · subst hj
      simp [refs, held, Fs.setInode, href]
    · simp [refs, held, Fs.setInode, hj, Ne.symm hj]
  · by_cases hj : jp = ip
    · subst hj
      exact hself _ (by simpa [Fs.setInode] using hjp) (hs jp)
    · exact hother jp (hs jp (by simpa [Fs.setInode, hj] using hjp)) hj

/-- A change of one inode that leaves its references and its lock alone. -/
theorem keeps_modifyInode {g : Inode → Inode} (ip : InodeId) (href : ∀ i, (g i).ref = i.ref)
    (hbusy : ∀ i, (g i).busy = i.busy) : Keeps (modifyInode ip g) := by
  refine ⟨fun L => (does_modifyInode (k := 0) (M := L) (fun i => ?_) (fun _ h _ => h)
    fun i h h' => ?_).from subset_rfl fun _ => funext fun _ => zero_mul _⟩
  · rw [href, add_zero]
  · exact h' (hbusy i ▸ h)

instance (ip : InodeId) (g : Dinode → Dinode) : Keeps (setDin ip g) :=
  keeps_modifyInode ip (fun _ => rfl) fun _ => rfl

theorem does_lock {g : Inode → Inode} (ip : InodeId) (href : ∀ i, (g i).ref = i.ref) :
    Does L (modifyInode ip g) (fun _ => 0) fun _ => insert ip L := by
  refine (does_modifyInode (k := 0) (M := insert ip L) (fun i => ?_) (fun _ h _ => .inr h)
    fun _ _ _ => .inl rfl).from subset_rfl fun _ => funext fun _ => zero_mul _
  rw [href, add_zero]

theorem does_unlock {g : Inode → Inode} (ip : InodeId) (href : ∀ i, (g i).ref = i.ref)
    (hbusy : ∀ i, (g i).busy = false) :
    Does L (modifyInode ip g) (fun _ => 0) fun _ => L \ {ip} := by
  refine (does_modifyInode (k := 0) (M := L \ {ip}) (fun i => ?_) (fun _ h hne => ⟨h, hne⟩)
    fun i h _ => ?_).from subset_rfl fun _ => funext fun _ => zero_mul _
  · rw [href, add_zero]
  · rw [hbusy] at h
    cases h

theorem relock (L : Set InodeId) (ip : InodeId) : insert ip L \ {ip} ⊆ L :=
  fun _ hjp => hjp.1.resolve_left hjp.2

instance (ip : InodeId) : Keeps (iupdate ip) := by
  unfold iupdate
  infer_instance

instance (ip : InodeId) (bn : ℕ) : Keeps (bmap ip bn) := by
  unfold bmap
  infer_instance

instance (ip : InodeId) : Keeps (itrunc ip) := by
  unfold itrunc
  infer_instance

instance (ip : InodeId) (fuel off n : ℕ) : Keeps (readiLoop ip fuel off n) := by
  induction fuel generalizing off n with
  | zero => exact keeps_pure _
  | succ fuel ih =>
    unfold readiLoop
    infer_instance

instance (devsw : Devsw) (ip : InodeId) (off n : ℕ) : Keeps (readi devsw ip off n) := by
  unfold readi
  refine keeps_bind (h := fun i => keeps_ite (h := keeps_ite (k := ?_)))
  split <;> infer_instance

instance (ip : InodeId) (fuel off : ℕ) (src : List UInt8) : Keeps (writeiLoop ip fuel off src) := by
  induction fuel generalizing off src with
  | zero => exact keeps_pure _
  | succ fuel ih =>
    unfold writeiLoop
    infer_instance

instance (devsw : Devsw) (ip : InodeId) (src : List UInt8) (off : ℕ) :
    Keeps (writei devsw ip src off) := by
  unfold writei
  refine keeps_bind (h := fun i => keeps_ite (h := keeps_ite (k := ?_)))
  split <;> infer_instance

theorem does_ilock (ip : InodeId) : Does L (ilock ip) (fun _ => 0) fun _ => insert ip L := by
  have hlock {M : Set InodeId} := does_lock (L := M) (g := fun i => { i with busy := true }) ip
    fun _ => rfl
  refine .after fun i => ?_
  split_ifs
  · exact .stop _
  · exact .stop _
  · exact hlock.bind fun _ => .pure (sub_zero 0) subset_rfl
  · refine hlock.bind fun _ => .after fun bp => ?_
    have hread := fun din =>
      keeps_modifyInode (g := fun i => { i with din := din, valid := true }) ip
      (fun _ => rfl) fun _ => rfl
    simp only [sub_zero]
    exact Does.after (h := hread _) fun _ => keeps_ite.does _

theorem does_iunlock (ip : InodeId) : Does L (iunlock ip) (fun _ => 0) fun _ => L \ {ip} := by
  refine .after fun i => ?_
  split_ifs
  · exact .stop _
  · exact does_unlock ip (fun _ => rfl) fun _ => rfl

theorem does_iput (ip : InodeId) : Does L (iput ip) (fun _ => -held (some ip)) fun _ => L := by
  have hdrop : ∀ M : Set InodeId, M ⊆ L → Does M
      (modifyInode ip fun i => { i with ref := i.ref - 1 }) (fun _ => -held (some ip)) fun _ => L :=
    fun M hM => Does.from (does_modifyInode (k := -1) (fun _ => rfl) (fun _ h _ => hM h)
      fun _ h h' => hM (h' h)) subset_rfl fun _ => funext fun _ => neg_one_mul _
  refine .after fun i => ?_
  split_ifs
  · exact .stop _
  · refine Does.bind (does_lock ip fun _ => rfl) fun _ => .after fun _ => .after fun _ =>
      .after fun _ => Does.bind (does_unlock ip (fun _ => rfl) fun _ => rfl) fun _ => ?_
    simp only [sub_zero]
    exact hdrop _ (relock L ip)
  · exact hdrop L subset_rfl

theorem does_iunlockput (ip : InodeId) :
    Does L (iunlockput ip) (fun _ => -held (some ip)) fun _ => L \ {ip} := by
  refine (does_iunlock ip).bind fun _ => ?_
  simp only [sub_zero]
  exact does_iput ip

theorem does_idup (ip : InodeId) : Does L (idup ip) (fun jp => held (some jp)) fun _ => L :=
  Does.bind (does_modifyInode (k := 1) (fun _ => rfl) (fun _ h _ => h) fun _ h h' => h' h) fun _ =>
    Does.pure (funext fun _ => by simp) subset_rfl

theorem does_iget (dev inum : ℕ) : Does L (iget dev inum) (fun ip => held (some ip))
    fun _ => L := by
  intro s hs
  rw [iget, wp_bind, wp_get]
  cases hscan : igetScan s dev inum (List.finRange NINODE) none with
  | inl ip => exact does_idup ip s hs
  | inr empty =>
    cases empty with
    | none => exact Does.stop _ s hs
    | some ip =>
      have hzero : (s.inode ip).ref = 0 :=
        ((igetScan_inr hscan).2 ip rfl).resolve_left (by simp)
      dsimp only
      rw [wp_bind, modifyInode, wp_modify, wp_pure]
      refine ⟨⟨rfl, rfl⟩, funext fun jp => ?_, fun jp hjp => hs jp ?_⟩
      · by_cases hj : jp = ip
        · subst hj
          simp [refs, held, Fs.setInode, hzero]
        · simp [refs, held, Fs.setInode, hj, Ne.symm hj]
      · by_cases hj : jp = ip
        · subst hj
          simp [Fs.setInode] at hjp
        · simpa [Fs.setInode, hj] using hjp

theorem does_ialloc (dev type : ℕ) :
    Does L (ialloc dev type) (fun ip => held (some ip)) fun _ => L := by
  refine .after fun sb => ?_
  suffices hloop : ∀ fuel inum, Does L (iallocFrom sb dev type fuel inum)
      (fun ip => held (some ip)) fun _ => L from hloop _ _
  intro fuel
  induction fuel with
  | zero => exact fun _ => .stop _
  | succ fuel ih =>
    intro inum
    rw [iallocFrom]
    split_ifs
    · refine .after fun bp => ?_
      split_ifs
      · exact .after fun _ => does_iget dev inum
      · exact ih _
    · exact .stop _

end inodes

section directories

variable {devsw : Devsw} {p : Fin NPROC} {dp : InodeId} {name : List UInt8}

instance (fuel off : ℕ) : Keeps (dirlookupFrom devsw dp name fuel off) := by
  induction fuel generalizing off with
  | zero => exact keeps_pure _
  | succ fuel ih =>
    unfold dirlookupFrom
    infer_instance

instance (fuel off : ℕ) : Keeps (dirFreeFrom devsw dp fuel off) := by
  induction fuel generalizing off with
  | zero => exact keeps_pure _
  | succ fuel ih =>
    unfold dirFreeFrom
    infer_instance

instance (fuel off : ℕ) : Keeps (isdiremptyFrom devsw dp fuel off) := by
  induction fuel generalizing off with
  | zero => exact keeps_pure _
  | succ fuel ih =>
    unfold isdiremptyFrom
    infer_instance

instance : Keeps (isdirempty devsw dp) := by
  unfold isdirempty
  infer_instance

theorem does_dirlookup :
    Does L (dirlookup devsw dp name) (fun r => held (r.map Prod.fst)) fun _ => L := by
  refine .after fun i => ?_
  split_ifs
  · exact .stop _
  · refine .after fun found => ?_
    cases found with
    | none => exact .pure rfl subset_rfl
    | some x => exact (does_iget _ _).bind fun ip => .pure (sub_self _) subset_rfl

theorem does_dirlink (inum : ℕ) : Does L (dirlink devsw dp name inum) (fun _ => 0) fun _ => L := by
  refine does_dirlookup.bind fun found => ?_
  cases found with
  | some x => exact (does_iput x.1).bind fun _ => .pure (by simp) subset_rfl
  | none =>
    refine .after fun i => .after fun off => .after fun r => ?_
    split_ifs
    · exact .stop _
    · exact .pure (by simp) subset_rfl

theorem does_namexFrom (parent : Bool) {fuel : ℕ} (ip : InodeId) {path : List UInt8}
    (hfuel : path.length < fuel) : Does L (namexFrom devsw parent fuel ip path)
      (fun r => held (r.map Prod.fst) - held (some ip)) fun _ => L := by
  induction fuel generalizing ip path with
  | zero => omega
  | succ fuel ih =>
    rw [namexFrom]
    rcases skipelem_spec path with ⟨hskip, -⟩ | ⟨name, rest, hskip, -, -, hlen⟩
    · rw [hskip]
      dsimp only
      split_ifs
      · exact (does_iput ip).bind fun _ => .pure (by simp) subset_rfl
      · exact .pure (sub_self _) subset_rfl
    · rw [hskip]
      refine (does_ilock ip).bind fun _ => .after fun i => ?_
      simp only [sub_zero]
      split_ifs
      · exact (does_iunlockput ip).bind fun _ => .pure (by simp) (relock L ip)
      · exact (does_iunlock ip).bind fun _ => .pure (by simp) (relock L ip)
      · refine does_dirlookup.bind fun found => ?_
        cases found with
        | none => exact (does_iunlockput ip).bind fun _ => .pure (by simp) (relock L ip)
        | some x =>
          refine (does_iunlockput ip).bind fun _ => ?_
          exact (ih x.1 (by omega)).from (relock L ip) fun r => by simp; abel

instance : Keeps (myproc p) := by
  unfold myproc
  refine keeps_bind (h := fun s => ?_)
  split <;> infer_instance

theorem does_namex (path : List UInt8) (parent : Bool) :
    Does L (namex devsw p path parent) (fun r => held (r.map Prod.fst)) fun _ => L := by
  rw [namex]
  split_ifs
  · exact (does_iget _ _).bind fun ip => does_namexFrom parent ip (Nat.lt_succ_self _)
  · exact .after fun q => (does_idup _).bind fun ip =>
      does_namexFrom parent ip (Nat.lt_succ_self _)

theorem does_namei (path : List UInt8) : Does L (namei devsw p path) (fun r => held r) fun _ => L :=
  (does_namex path false).bind fun _ => .pure (sub_self _) subset_rfl

/-- The inode that is returned is locked. -/
def lockedWith (L : Set InodeId) : Option InodeId → Set InodeId
  | none => L
  | some ip => insert ip L

theorem does_create (path : List UInt8) (type major minor : ℕ) :
    Does L (create devsw p path type major minor) (fun r => held r) (lockedWith L) := by
  refine (does_namex path true).bind fun r => ?_
  cases r with
  | none => exact .pure (by simp) subset_rfl
  | some x =>
    obtain ⟨dp, name⟩ := x
    refine (does_ilock dp).bind fun _ => does_dirlookup.bind fun found => ?_
    cases found with
    | some y =>
      refine (does_iunlockput dp).bind fun _ => (does_ilock y.1).bind fun _ => .after fun i => ?_
      split_ifs
      · exact .pure (by simp) (Set.insert_subset_insert (relock L dp))
      · exact (does_iunlockput y.1).bind fun _ => .pure (by simp; abel)
          ((relock _ y.1).trans (relock L dp))
    | none =>
      have hend : ∀ ip, Does (insert ip (insert dp L)) (do
          let i ← inodeAt ip
          let r ← dirlink devsw dp name i.inum
          if r < 0 then panic "create: dirlink"
          else do
            iunlockput dp
            return some ip) (fun r => held r - held (some dp) - held (some ip)) (lockedWith L) := by
        intro ip
        refine .after fun i => (does_dirlink _).bind fun r => ?_
        split_ifs
        · exact .stop _
        · refine (does_iunlockput dp).bind fun _ => .pure (by simp) fun jp hjp => ?_
          exact hjp.1.imp id fun h => h.resolve_left hjp.2
      refine .after fun d => (does_ialloc _ _).bind fun ip => (does_ilock ip).bind fun _ =>
        .after fun _ => .after fun _ => ?_
      simp only [Option.map_some, Option.map_none, held_none, sub_zero]
      split_ifs
      · refine .after fun _ => .after fun _ => .after fun i => .after fun d =>
          (does_dirlink _).bind fun r => ?_
        simp only [sub_zero]
        split_ifs
        · exact .stop _
        · refine (does_dirlink _).bind fun r => ?_
          simp only [sub_zero]
          split_ifs
          · exact .stop _
          · exact hend ip
      · exact hend ip

end directories

section calls

variable {devsw : Devsw} {p : Fin NPROC}

theorem does_sysLinkBad (ip : InodeId) :
    Does L (sysLinkBad ip) (fun _ => -held (some ip)) fun _ => L :=
  (does_ilock ip).bind fun _ => .after fun _ => .after fun _ => (does_iunlockput ip).bind fun _ =>
    .after fun _ => .pure (by simp) (relock L ip)

theorem does_sysLink (old new : List UInt8) :
    Does L (sysLink devsw p old new) (fun _ => 0) fun _ => L := by
  refine .after fun _ => (does_namei old).bind fun r => ?_
  cases r with
  | none => exact .after fun _ => .pure (by simp) subset_rfl
  | some ip =>
    refine (does_ilock ip).bind fun _ => .after fun i => ?_
    split_ifs
    · exact (does_iunlockput ip).bind fun _ => .after fun _ => .pure (by simp) (relock L ip)
    · refine .after fun _ => .after fun _ => (does_iunlock ip).bind fun _ =>
        (does_namex new true).bind fun r => ?_
      cases r with
      | none => exact (does_sysLinkBad ip).from (relock L ip) fun _ => by simp
      | some x =>
        obtain ⟨dp, name⟩ := x
        have hend : ∀ bad : Bool, Does (insert dp L) (do
            iunlockput dp
            if bad then sysLinkBad ip
            else do
              iput ip
              endOp
              return 0) (fun _ => -held (some ip) - held (some dp)) fun _ => L := by
          intro bad
          refine (does_iunlockput dp).bind fun _ => ?_
          split_ifs
          · exact (does_sysLinkBad ip).from (relock L dp) fun _ => by simp
          · exact (does_iput ip).bind fun _ => .after fun _ => .pure (by simp) (relock L dp)
        have hlock := Set.insert_subset_insert (a := dp) (relock L ip)
        refine (does_ilock dp).bind fun _ => .after fun d => .after fun i => ?_
        split_ifs
        · exact (hend true).from hlock fun _ => by simp
        · exact (does_dirlink _).bind fun r => (hend _).from hlock fun _ => by simp

theorem does_sysUnlink (path : List UInt8) :
    Does L (sysUnlink devsw p path) (fun _ => 0) fun _ => L := by
  refine .after fun _ => (does_namex path true).bind fun r => ?_
  cases r with
  | none => exact .after fun _ => .pure (by simp) subset_rfl
  | some x =>
    obtain ⟨dp, name⟩ := x
    have hbad : Does (insert dp L) (sysUnlinkBad dp) (fun _ => -held (some dp)) fun _ => L :=
      (does_iunlockput dp).bind fun _ => .after fun _ => .pure (by simp) (relock L dp)
    refine (does_ilock dp).bind fun _ => ?_
    split_ifs
    · exact hbad.from subset_rfl fun _ => by simp
    · refine does_dirlookup.bind fun found => ?_
      cases found with
      | none => exact hbad.from subset_rfl fun _ => by simp
      | some y =>
        obtain ⟨ip, off⟩ := y
        have hnot : Does (insert ip (insert dp L)) (do
            iunlockput ip
            sysUnlinkBad dp) (fun _ => -held (some dp) - held (some ip)) fun _ => L :=
          (does_iunlockput ip).bind fun _ => hbad.from (relock _ ip) fun _ => by simp
        have hlocks : (insert ip (insert dp L) \ {dp}) \ {ip} ⊆ L := fun jp hjp =>
          (hjp.1.1.resolve_left hjp.2).resolve_left hjp.1.2
        have hend : Does (insert ip (insert dp L)) (do
            iunlockput dp
            setDin ip fun d => { d with nlink := (d.nlink + (2 ^ 16 - 1)) % 2 ^ 16 }
            iupdate ip
            iunlockput ip
            endOp
            return (0 : ℤ)) (fun _ => -held (some dp) - held (some ip)) fun _ => L :=
          (does_iunlockput dp).bind fun _ => .after fun _ => .after fun _ =>
            (does_iunlockput ip).bind fun _ => .after fun _ => .pure (by simp; abel) hlocks
        refine (does_ilock ip).bind fun _ => .after fun i => ?_
        simp only [Option.map_some, sub_zero, zero_sub]
        split_ifs
        · exact .stop _
        · refine .after fun empty => ?_
          split_ifs
          · exact hnot
          · refine .after fun r => ?_
            split_ifs
            · exact .stop _
            · exact .after fun _ => .after fun _ => hend
        · refine .after fun empty => ?_
          split_ifs
          · exact hnot
          · refine .after fun r => ?_
            split_ifs
            · exact .stop _
            · exact hend

theorem does_makeNode (path : List UInt8) (type major minor : ℕ) :
    Does L (makeNode devsw p path type major minor) (fun _ => 0) fun _ => L := by
  refine .after fun _ => (does_create path type major minor).bind fun r => ?_
  cases r with
  | none => exact .after fun _ => .pure (by simp) subset_rfl
  | some ip =>
    exact (does_iunlockput ip).bind fun _ => .after fun _ => .pure (by simp) (relock L ip)

theorem does_sysExec (path : List UInt8) (reads : List (ℕ × ℕ)) :
    Does L (sysExec devsw p path reads) (fun _ => 0) fun _ => L := by
  refine .after fun _ => (does_namei path).bind fun r => ?_
  cases r with
  | none => exact (Keeps.does L).from subset_rfl fun _ => by simp
  | some ip =>
    refine (does_ilock ip).bind fun _ => .after fun _ => (does_iunlockput ip).bind fun _ => ?_
    exact (Keeps.does L).from (relock L ip) fun _ => by simp

end calls

end Refs

end Xv6
