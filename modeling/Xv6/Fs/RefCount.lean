import Mathlib.Algebra.BigOperators.Fin
import Mathlib.Algebra.BigOperators.Pi
import Xv6.Fs.Filewrite
import Xv6.Fs.Held
import Xv6.Lib.Run

/-! The reference counts of open files and of inodes are exact between system calls. -/
namespace Xv6
open Prog

namespace Refs

variable {s t : Fs} {φ : FileId → ℤ} {γ : InodeId → ℤ} {L : Set InodeId} {p : Fin NPROC}

def fileInode (x : File) : Option InodeId := if x.type = .inode then some x.ip else none

def opened (o : Option Proc) : FileId → ℤ := ∑ fd, held (o.bind fun q => q.ofile fd)

def descriptors (s : Fs) : FileId → ℤ := ∑ p, opened (s.proc p)

/-- How many open files and current directories refer to each inode. -/
def users (s : Fs) : InodeId → ℤ :=
  ∑ f, held (fileInode (s.file f)) + ∑ p, held ((s.proc p).map Proc.cwd)

/-- The counts of the files and the inodes, with references in flight beside those that are stored;
a free file has no type. -/
structure Counts (s : Fs) (φ : FileId → ℤ) (γ : InodeId → ℤ) (L : Set InodeId) : Prop where
  files : (fun f => (s.file f).ref) = descriptors s + φ
  inodes : refs s = users s + γ
  free : ∀ f, (s.file f).ref = 0 → (s.file f).type = .none
  locked : Locked s L

theorem sum_update {ι A G : Type*} [Fintype ι] [DecidableEq ι] [AddCommGroup G] (g : A → G)
    (F : ι → A) (i : ι) (a : A) :
    ∑ x, g (Function.update F i a x) = ∑ x, g (F x) + (g a - g (F i)) := by
  rw [← Finset.add_sum_erase _ _ (Finset.mem_univ i),
    ← Finset.add_sum_erase (a := i) _ (fun x => g (F x)) (Finset.mem_univ i), Function.update_self]
  rw [Finset.sum_congr rfl fun x hx => by rw [Function.update_of_ne (Finset.ne_of_mem_erase hx)]]
  abel

theorem opened_setOfile (q : Proc) (fd : Fin NOFILE) (o : Option FileId) :
    opened (some (q.setOfile fd o)) = opened (some q) + (held o - held (q.ofile fd)) :=
  sum_update (fun o => held o) q.ofile fd o

section state

variable {f : FileId} {φ' : FileId → ℤ} {γ' : InodeId → ℤ}

theorem Counts.setFile (h : Counts s φ γ L) {x : File} (hfree : x.ref = 0 → x.type = .none)
    (hφ : φ' = φ + fun g => (x.ref - (s.file f).ref) * held (some f) g)
    (hγ : γ' = γ + (held (fileInode (s.file f)) - held (fileInode x))) :
    Counts { s with file := Function.update s.file f x } φ' γ' L := by
  refine ⟨funext fun g => ?_, ?_, fun g hg => ?_, h.locked⟩
  · have hg := congrFun h.files g
    by_cases hgf : g = f
    · subst hgf
      simp only [Pi.add_apply, hφ, held, Function.update_self, if_true, mul_one,
        descriptors] at hg ⊢
      omega
    · have hfg : some f ≠ some g := fun heq => hgf (Option.some.inj heq).symm
      simp only [Pi.add_apply, hφ, held, Function.update_of_ne hgf, if_neg hfg, mul_zero, add_zero,
        descriptors] at hg ⊢
      exact hg
  · have hinodes := h.inodes
    simp only [users, sum_update fun x => held (fileInode x)] at hinodes ⊢
    rw [show refs { s with file := Function.update s.file f x } = refs s from rfl, hinodes, hγ]
    abel
  · simp only [Function.update_apply] at hg ⊢
    split_ifs at hg ⊢
    · exact hfree hg
    · exact h.free g hg

theorem Counts.setProc (h : Counts s φ γ L) {o : Option Proc}
    (hφ : φ' = φ + (opened (s.proc p) - opened o))
    (hγ : γ' = γ + (held ((s.proc p).map Proc.cwd) - held (o.map Proc.cwd))) :
    Counts { s with proc := Function.update s.proc p o } φ' γ' L := by
  refine ⟨?_, ?_, h.free, h.locked⟩
  · have hfiles := h.files
    simp only [descriptors, sum_update opened] at hfiles ⊢
    rw [hfiles, hφ]
    abel
  · have hinodes := h.inodes
    simp only [users, sum_update fun o => held (Option.map Proc.cwd o)] at hinodes ⊢
    rw [show refs { s with proc := Function.update s.proc p o } = refs s from rfl, hinodes, hγ]
    abel

theorem Counts.does {α : Type} {m : FsM α} {δ : α → InodeId → ℤ} {N : α → Set InodeId}
    (h : Counts s φ γ L) (hm : Does L m δ N) :
    wp m s (fun a t => (t.file = s.file ∧ t.proc = s.proc) ∧ Counts t φ (γ + δ a) (N a))
      fun _ => True := by
  refine wp_post (hm s h.locked) fun a t ht => ?_
  obtain ⟨⟨hfile, hproc⟩, hrefs, hlocked⟩ := ht
  refine ⟨⟨hfile, hproc⟩, ?_, ?_, ?_, hlocked⟩
  · rw [hfile, descriptors, hproc]
    exact h.files
  · rw [hrefs, h.inodes, users, users, hfile, hproc, add_assoc]
  · rw [hfile]
    exact h.free

theorem Counts.after {α β : Type} {m : FsM α} [k : Keeps m] {f : α → FsM β} {Q : β → Fs → Prop}
    (h : Counts s φ γ L) (hf : ∀ a t, t.file = s.file ∧ t.proc = s.proc → Counts t φ γ L →
      wp (f a) t Q fun _ => True) : wp (m >>= f) s Q fun _ => True :=
  wp_seq (h.does (k.does L)) fun a t ht => hf a t ht.1 (by simpa using ht.2)

theorem filealloc_spec (h : Counts s φ γ L) :
    wp filealloc s (fun r t => (t.proc = s.proc ∧ Counts t (φ + held r) γ L) ∧
      ∀ f, r = some f → (s.file f).ref = 0 ∧
        t.file = Function.update s.file f { s.file f with ref := 1 }) fun _ => True := by
  rw [filealloc, wp_bind, wp_get]
  cases hfind : (List.finRange NFILE).find? fun f => (s.file f).ref = 0 with
  | none =>
    rw [wp_pure, held_none, add_zero]
    exact ⟨⟨rfl, h⟩, fun f hf => by cases hf⟩
  | some f =>
    have hzero : (s.file f).ref = 0 := by simpa using List.find?_some hfind
    dsimp only
    rw [wp_bind, modifyFile, wp_modify, wp_pure]
    refine ⟨⟨rfl, h.setFile (fun hone => by cases hone) ?_ ?_⟩, fun g hg => ?_⟩
    · simp [hzero]
    · simp [fileInode]
    · obtain rfl := Option.some.inj hg
      exact ⟨hzero, rfl⟩

theorem filedup_spec (h : Counts s φ γ L) :
    wp (filedup f) s (fun _ t => t.proc = s.proc ∧ Counts t (φ + held (some f)) γ L)
      fun _ => True := by
  rw [filedup, wp_bind, wp_fileAt]
  split_ifs with href
  · rw [panic, wp_stop]
    trivial
  · rw [wp_bind, modifyFile, wp_modify, wp_pure]
    refine ⟨rfl, h.setFile (fun hone => ?_) ?_ ?_⟩
    · dsimp only at hone
      omega
    · simp
    · simp [fileInode]

theorem fileclose_spec (h : Counts s φ γ L) :
    wp (fileclose f) s (fun _ t => t.proc = s.proc ∧ Counts t (φ - held (some f)) γ L)
      fun _ => True := by
  rw [fileclose, wp_bind, wp_fileAt]
  have hclosed (hone : (s.file f).ref = 1) : Counts _ (φ - held (some f)) _ L :=
    h.setFile (f := f) (x := { s.file f with ref := 0, type := .none }) (fun _ => rfl)
      (funext fun g => by simp [hone, sub_eq_add_neg]) rfl
  split_ifs with hlow hmore htype
  · rw [panic, wp_stop]
    trivial
  · rw [modifyFile, wp_modify]
    refine ⟨rfl, h.setFile (fun hzero => ?_) ?_ ?_⟩
    · dsimp only at hzero
      omega
    · funext g
      simp [sub_eq_add_neg]
    · simp [fileInode]
  · rw [wp_bind, modifyFile, wp_modify]
    have hput : Does L (do
        beginOp
        iput (s.file f).ip
        endOp) (fun _ => -held (some (s.file f).ip)) fun _ => L :=
      .after fun _ => (does_iput _).bind fun _ => (Keeps.does L).from subset_rfl fun _ => by simp
    refine wp_post ((hclosed (by omega)).does hput) fun _ t ht => ⟨ht.1.2, ?_⟩
    convert ht.2 using 1
    simp [fileInode, htype]
  · rw [wp_bind, modifyFile, wp_modify, wp_pure]
    refine ⟨rfl, ?_⟩
    convert hclosed (by omega) using 1
    simp [fileInode, htype]

theorem wp_myproc {Q : Proc → Fs → Prop} (h : ∀ q, s.proc p = some q → Q q s) :
    wp (myproc p) s Q fun _ => True := by
  rw [myproc, wp_bind, wp_get]
  cases hq : s.proc p with
  | none =>
    rw [panic, wp_stop]
    trivial
  | some q =>
    rw [wp_pure]
    exact h q hq

theorem setOfile_spec (h : Counts s φ γ L) {q : Proc} (hq : s.proc p = some q) (fd : Fin NOFILE)
    (o : Option FileId) :
    wp (modifyProc p fun q => q.setOfile fd o) s (fun _ t => t.file = s.file ∧
      t.proc = Function.update s.proc p (some (q.setOfile fd o)) ∧
      Counts t (φ + (held (q.ofile fd) - held o)) γ L) fun _ => True := by
  rw [modifyProc, wp_modify, hq]
  refine ⟨rfl, rfl, h.setProc ?_ ?_⟩
  · rw [hq, Option.map_some, opened_setOfile]
    abel
  · simp [hq, Proc.setOfile]

theorem fdalloc_spec (h : Counts s φ γ L) :
    wp (fdalloc p f) s (fun r t => t.file = s.file ∧ Counts t (φ - held (r.map fun _ => f)) γ L ∧
      (r = none → t = s) ∧ ∀ fd, r = some fd → ∃ q, t.proc p = some q ∧ q.ofile fd = some f)
      fun _ => True := by
  rw [fdalloc, wp_bind]
  refine wp_myproc fun q hq => ?_
  cases hfind : (List.finRange NOFILE).find? fun fd => q.ofile fd = none with
  | none =>
    rw [wp_pure, Option.map_none, held_none, sub_zero]
    exact ⟨rfl, h, fun _ => rfl, fun fd hfd => by cases hfd⟩
  | some fd =>
    have hnone : q.ofile fd = none := by simpa using List.find?_some hfind
    refine wp_seq (setOfile_spec h hq fd (some f)) fun _ t ht => ?_
    obtain ⟨hfile, hproc, ht⟩ := ht
    rw [wp_pure]
    refine ⟨hfile, ?_, (fun hr => by cases hr), fun fd' hfd' => ⟨q.setOfile fd (some f), ?_, ?_⟩⟩
    · convert ht using 1
      simp [hnone, sub_eq_add_neg]
    · rw [hproc, Function.update_self]
    · obtain rfl := Option.some.inj hfd'
      exact Function.update_self _ _ _

end state

section calls

variable {devsw : Devsw} {fd : Fin NOFILE}

/-- What every system call keeps. -/
abbrev Exact (s : Fs) : Prop := Counts s 0 0 ∅

/-- If the call returns, it has kept them. -/
abbrev Stays {α : Type} (m : FsM α) (s : Fs) : Prop := wp m s (fun _ t => Exact t) fun _ => True

theorem Counts.stays {α : Type} {m : FsM α} {δ : α → InodeId → ℤ} (h : Counts s 0 γ L)
    (hm : Does L m δ fun _ => ∅) (hδ : ∀ a, γ + δ a = 0) : Stays m s := by
  refine wp_post (h.does hm) fun a t ht => ?_
  rw [hδ a] at ht
  exact ht.2

theorem argfd_exact {k : Option FileId → FsM ℤ} (h : Exact s) (hnone : k none = pure (-1))
    (hsome : ∀ q f, s.proc p = some q → q.ofile fd = some f →
      Stays (k (some f)) s) : Stays (argfd p fd >>= k) s := by
  rw [Stays, argfd, wp_bind, wp_bind]
  refine wp_myproc fun q hq => ?_
  rw [wp_pure]
  cases hf : q.ofile fd with
  | none =>
    rw [hnone, wp_pure]
    exact h
  | some f => exact hsome q f hq hf

theorem sysDup_exact (h : Exact s) : Stays (sysDup p fd) s := by
  refine argfd_exact h rfl fun q f _ _ => wp_seq (fdalloc_spec h) fun r t ht => ?_
  cases r with
  | none =>
    rw [wp_pure]
    simpa using ht.2.1
  | some fd' =>
    refine wp_seq (filedup_spec ht.2.1) fun _ u hu => ?_
    rw [wp_pure]
    simpa using hu.2

theorem sysClose_exact (h : Exact s) : Stays (sysClose p fd) s := by
  refine argfd_exact h rfl fun q f hq hf => wp_seq (setOfile_spec h hq fd none) fun _ t ht => ?_
  refine wp_seq (fileclose_spec (f := f) ht.2.2) fun _ u hu => ?_
  rw [wp_pure]
  simpa [hf] using hu.2

theorem Counts.setOff (h : Counts s φ γ L) (f : FileId) (off : ℕ) :
    Counts { s with file := Function.update s.file f { s.file f with off := off } } φ γ L :=
  h.setFile (h.free f) (by simp [← Pi.zero_def]) (by simp [fileInode])

theorem iunlock_spec {α : Type} {ip : InodeId} {k : Unit → FsM α} {Q : α → Fs → Prop}
    (h : Counts s φ γ (insert ip ∅))
    (hk : ∀ t, t.file = s.file ∧ t.proc = s.proc → Counts t φ γ ∅ → wp (k ()) t Q fun _ => True) :
    wp (iunlock ip >>= k) s Q fun _ => True := by
  refine wp_seq (h.does (does_iunlock ip)) fun _ t ht => hk t ht.1 ?_
  have hnone : insert ip (∅ : Set InodeId) \ {ip} = ∅ := Set.subset_empty_iff.mp (relock ∅ ip)
  simpa [hnone] using ht.2

theorem sysRead_exact (n : ℕ) (h : Exact s) : Stays (sysRead devsw p fd n) s := by
  refine argfd_exact h rfl fun q f _ _ => ?_
  rw [Stays, wp_bind, fileread, wp_bind, wp_fileAt]
  split_ifs
  · simpa using h
  · cases (s.file f).type with
    | none =>
      rw [panic, wp_stop]
      trivial
    | pipe => simpa using h
    | inode =>
      refine wp_seq (h.does (does_ilock (s.file f).ip)) fun _ t ht => ?_
      refine ht.2.after fun r u _ hu => ?_
      have hlocked : Counts u 0 0 (insert (s.file f).ip ∅) := by simpa using hu
      dsimp only
      split_ifs
      · rw [wp_bind, modifyFile, wp_modify]
        exact iunlock_spec (hlocked.setOff f _) fun t _ ht => by simpa using ht
      · exact iunlock_spec hlocked fun t _ ht => by simpa using ht

theorem filewriteFrom_exact {f : FileId} {fuel : ℕ} {src : List UInt8} (h : Exact s) :
    Stays (filewriteFrom devsw f fuel src) s := by
  induction fuel generalizing s src with
  | zero => exact (wp_pure _).mpr h
  | succ fuel ih =>
    rw [filewriteFrom]
    split_ifs
    · refine h.after fun _ t _ ht => ?_
      rw [wp_bind, wp_fileAt]
      refine wp_seq (ht.does (does_ilock (t.file f).ip)) fun _ u hu => hu.2.after fun r v _ hv => ?_
      have hlocked : Counts v 0 0 (insert (t.file f).ip ∅) := by simpa using hv
      have hend : ∀ w, Counts w 0 0 ∅ → Stays (do
          endOp
          if r < 0 then return false
          else if r ≠ (min src.length filewriteMax : ℕ) then panic "short filewrite"
          else filewriteFrom devsw f fuel (src.drop (min src.length filewriteMax))) w := by
        refine fun w hw => hw.after fun _ t _ ht => ?_
        split_ifs
        · exact (wp_pure _).mpr ht
        · rw [panic, wp_stop]
          trivial
        · exact ih ht
      by_cases hr : r > 0
      · rw [if_pos hr, wp_bind, modifyFile, wp_modify]
        exact iunlock_spec (hlocked.setOff f _) fun w _ => hend w
      · rw [if_neg hr]
        exact iunlock_spec hlocked fun w _ => hend w
    · exact (wp_pure _).mpr h

theorem sysWrite_exact (src : List UInt8) (h : Exact s) : Stays (sysWrite devsw p fd src) s := by
  refine argfd_exact h rfl fun q f _ _ => ?_
  dsimp only
  rw [Stays, filewrite, wp_bind, wp_fileAt]
  split_ifs
  · exact (wp_pure _).mpr h
  · cases (s.file f).type with
    | none =>
      rw [panic, wp_stop]
      trivial
    | pipe => exact (wp_pure _).mpr h
    | inode => exact wp_seq (filewriteFrom_exact h) fun _ t ht => (wp_pure _).mpr ht

/-- The exit of `sys_open`, with `ip` locked. -/
theorem openBad_exact {ip : InodeId} (h : Counts s 0 (held (some ip)) (insert ip ∅)) :
    Stays (do
      iunlockput ip
      endOp
      return (-1 : ℤ)) s :=
  h.stays ((does_iunlockput ip).bind fun _ => .after fun _ => .pure (sub_self _) (relock ∅ ip))
    fun _ => add_neg_cancel _

theorem openFile_exact {ip : InodeId} (omode : ℕ) (h : Counts s 0 (held (some ip)) (insert ip ∅)) :
    Stays (openFile p ip omode) s := by
  refine wp_seq (filealloc_spec h) fun r t ht => ?_
  cases r with
  | none => exact openBad_exact (by simpa using ht.1.2)
  | some f =>
    obtain ⟨hzero, hfile⟩ := ht.2 f rfl
    refine wp_seq (fdalloc_spec (f := f) ht.1.2) fun r u hu => ?_
    cases r with
    | none =>
      refine wp_seq (fileclose_spec (f := f) hu.2.1) fun _ v hv => openBad_exact ?_
      simpa using hv.2
    | some fd =>
      have hcounts : Counts u 0 (held (some ip)) (insert ip ∅) := by simpa using hu.2.1
      refine iunlock_spec hcounts fun v hv hcv => ?_
      refine hcv.after fun _ w hw hcw => ?_
      have hwf : w.file f = { s.file f with ref := 1 } := by
        rw [hw.1, hv.1, hu.1, hfile, Function.update_self]
      rw [wp_bind, modifyFile, wp_modify, wp_pure]
      refine hcw.setFile (fun hone => ?_) ?_ ?_
      · rw [hwf] at hone
        cases hone
      · simp [← Pi.zero_def]
      · simp [hwf, fileInode, h.free f hzero]

theorem noPath_exact (h : Exact s) :
    Stays (do
      endOp
      return (-1 : ℤ)) s :=
  h.after fun _ _ _ ht => (wp_pure _).mpr ht

theorem sysOpen_exact (path : List UInt8) (omode : ℕ) (h : Exact s) :
    Stays (sysOpen devsw p path omode) s := by
  refine h.after fun _ t _ ht => ?_
  split_ifs
  · refine wp_seq (ht.does (does_create path _ _ _)) fun r u hu => ?_
    cases r with
    | none => exact noPath_exact (by simpa [lockedWith] using hu.2)
    | some ip => exact openFile_exact omode (by simpa [lockedWith] using hu.2)
  · refine wp_seq (ht.does (does_namei path)) fun r u hu => ?_
    cases r with
    | none => exact noPath_exact (by simpa using hu.2)
    | some ip =>
      refine wp_seq (hu.2.does (does_ilock ip)) fun _ v hv => hv.2.after fun i w _ hw => ?_
      have hcounts : Counts w 0 (held (some ip)) (insert ip ∅) := by simpa using hw
      split_ifs
      · exact openBad_exact hcounts
      · exact openFile_exact omode hcounts

theorem sysChdir_exact (path : List UInt8) (h : Exact s) : Stays (sysChdir devsw p path) s := by
  refine h.after fun _ t _ ht => wp_seq (ht.does (does_namei path)) fun r u hu => ?_
  cases r with
  | none => exact noPath_exact (by simpa using hu.2)
  | some ip =>
    refine wp_seq (hu.2.does (does_ilock ip)) fun _ v hv => hv.2.after fun i w _ hw => ?_
    have hcounts : Counts w 0 (held (some ip)) (insert ip ∅) := by simpa using hw
    split_ifs
    · exact openBad_exact hcounts
    · refine iunlock_spec hcounts fun x _ hx => ?_
      rw [wp_bind]
      refine wp_myproc fun q hq => wp_seq (hx.does (does_iput q.cwd)) fun _ y hy => ?_
      refine hy.2.after fun _ z hz hcz => ?_
      have hzq : z.proc p = some q := by rw [hz.2, hy.1.2, hq]
      rw [wp_bind, modifyProc, wp_modify, wp_pure, hzq]
      refine hcz.setProc ?_ ?_
      · simp [hzq, opened]
      · simp only [hzq, Option.map_some]
        abel

theorem opened_eq (q : Proc) :
    opened (some q) = ((List.finRange NOFILE).map fun fd => held (q.ofile fd)).sum :=
  Fin.sum_univ_def _

theorem sysFork_exact {c : Fin NPROC} (hc : s.proc c = none) (h : Exact s) :
    Stays (sysFork p c) s := by
  rw [Stays, sysFork, wp_bind]
  refine wp_myproc fun q _ => ?_
  refine wp_seq (wp_forM (I := fun done u => u.proc = s.proc ∧
    Counts u (done.map fun fd => held (q.ofile fd)).sum 0 ∅) ?_ ⟨rfl, h⟩) fun _ t ht => ?_
  · intro done fd rest u _ hu
    rw [List.map_append, List.sum_append, List.map_singleton, List.sum_singleton]
    cases q.ofile fd with
    | none => exact (wp_pure _).mpr ⟨hu.1, by simpa using hu.2⟩
    | some f =>
      exact wp_seq (filedup_spec hu.2) fun _ v hv => (wp_pure _).mpr ⟨hv.1.trans hu.1, hv.2⟩
  · rw [← opened_eq] at ht
    refine wp_seq (ht.2.does (does_idup q.cwd)) fun cwd u hu => ?_
    have huc : u.proc c = none := by rw [hu.1.2, ht.1, hc]
    rw [wp_bind, wp_modify, wp_pure]
    refine hu.2.setProc ?_ ?_
    · simp [huc, opened]
    · simp [huc]

theorem sysExit_exact (h : Exact s) : Stays (sysExit p) s := by
  refine wp_seq (wp_forM (I := fun done u => Exact u ∧
    ∀ q, u.proc p = some q → ∀ fd ∈ done, q.ofile fd = none) ?_ ⟨h, by simp⟩) fun _ t ht => ?_
  · intro done fd rest u _ hu
    rw [wp_bind]
    refine wp_myproc fun q hq => ?_
    have hdone := hu.2 q hq
    cases hf : q.ofile fd with
    | none =>
      refine (wp_pure _).mpr ⟨hu.1, fun q' hq' fd' hfd' => ?_⟩
      obtain rfl := Option.some.inj (hq.symm.trans hq')
      rcases List.mem_append.mp hfd' with hmem | hmem
      · exact hdone fd' hmem
      · rwa [List.mem_singleton.mp hmem]
    | some f =>
      refine wp_seq (fileclose_spec (f := f) hu.1) fun _ v hv => ?_
      refine wp_post (setOfile_spec hv.2 (hv.1 ▸ hq) fd none) fun _ w hw => ?_
      refine ⟨by simpa [hf] using hw.2.2, fun q' hq' fd' hfd' => ?_⟩
      rw [hw.2.1, Function.update_self] at hq'
      obtain rfl := Option.some.inj hq'
      by_cases hfd : fd' = fd
      · rw [hfd]
        exact Function.update_self _ _ _
      · have hmem := (List.mem_append.mp hfd').resolve_right fun hmem =>
          hfd (List.mem_singleton.mp hmem)
        exact (Function.update_of_ne hfd _ _).trans (hdone fd' hmem)
  · refine ht.1.after fun _ u hu hcu => ?_
    rw [wp_bind]
    refine wp_myproc fun q hq => wp_seq (hcu.does (does_iput q.cwd)) fun _ v hv => ?_
    refine hv.2.after fun _ w hw hcw => ?_
    have hwq : w.proc p = some q := by rw [hw.2, hv.1.2, hq]
    have hnone : opened (some q) = 0 := by
      refine Finset.sum_eq_zero fun fd _ => ?_
      have hfd := ht.2 q (hu.2 ▸ hq) fd (List.mem_finRange fd)
      simp [hfd]
    rw [wp_modify]
    refine hcw.setProc ?_ ?_
    · rw [hwq, hnone]
      simp [opened]
    · simp [hwq]

theorem Counts.setPipe (h : Counts s φ γ L) {f : FileId} (href : (s.file f).ref = 1)
    (htype : (s.file f).type = .none) (readable writable : Bool) :
    Counts { s with file := Function.update s.file f { s.file f with
      type := .pipe
      readable := readable
      writable := writable } } φ γ L := by
  refine h.setFile (fun hzero => ?_) ?_ ?_
  · rw [href] at hzero
    cases hzero
  · simp [← Pi.zero_def]
  · simp [fileInode, htype]

theorem pipealloc_spec (room : Bool) (h : Exact s) :
    wp (pipealloc room) s (fun r t =>
      Counts t (held (r.map Prod.fst) + held (r.map Prod.snd)) 0 ∅) fun _ => True := by
  refine wp_seq (filealloc_spec h) fun r t ht => ?_
  cases r with
  | none => exact (wp_pure _).mpr (by simpa using ht.1.2)
  | some f0 =>
    obtain ⟨hzero0, hfile0⟩ := ht.2 f0 rfl
    refine wp_seq (filealloc_spec ht.1.2) fun r u hu => ?_
    cases r with
    | none =>
      refine wp_seq (fileclose_spec (f := f0) hu.1.2) fun _ v hv => (wp_pure _).mpr ?_
      simpa using hv.2
    | some f1 =>
      obtain ⟨hzero1, hfile1⟩ := hu.2 f1 rfl
      have hne : f1 ≠ f0 := by
        rintro rfl
        rw [hfile0, Function.update_self] at hzero1
        cases hzero1
      have hf0 : u.file f0 = { s.file f0 with ref := 1 } := by
        rw [hfile1, Function.update_of_ne hne.symm, hfile0, Function.update_self]
      have hf1 : u.file f1 = { t.file f1 with ref := 1 } := by rw [hfile1, Function.update_self]
      dsimp only
      split_ifs
      · have hends := (hu.1.2.setPipe (by rw [hf0]) (by rw [hf0]; exact h.free f0 hzero0) true
          false).setPipe (f := f1) (by simp [hne, hf1])
          (by simp [hne, hf1, ht.1.2.free f1 hzero1]) false true
        rw [wp_bind, modifyFile, wp_modify, wp_bind, modifyFile, wp_modify, wp_pure]
        simpa using hends
      · refine wp_seq (fileclose_spec (f := f0) hu.1.2) fun _ v hv => ?_
        refine wp_seq (fileclose_spec (f := f1) hv.2) fun _ w hw => (wp_pure _).mpr ?_
        simpa using hw.2

theorem sysPipe_exact (room : Bool) (h : Exact s) : Stays (sysPipe p room) s := by
  refine wp_seq (pipealloc_spec room h) fun r t ht => ?_
  cases r with
  | none => exact (wp_pure _).mpr (by simpa using ht)
  | some x =>
    obtain ⟨rf, wf⟩ := x
    have hclose : ∀ u, Counts u (held (some rf) + held (some wf)) 0 ∅ →
        Stays (do
          fileclose rf
          fileclose wf
          return (-1 : ℤ)) u := by
      refine fun u hu => wp_seq (fileclose_spec (f := rf) hu) fun _ v hv => ?_
      refine wp_seq (fileclose_spec (f := wf) hv.2) fun _ w hw => (wp_pure _).mpr ?_
      simpa using hw.2
    refine wp_seq (fdalloc_spec (f := rf) ht) fun r u hu => ?_
    cases r with
    | none => exact hclose u (by simpa using hu.2.1)
    | some fd0 =>
      obtain ⟨q, hq, hfd⟩ := hu.2.2.2 fd0 rfl
      refine wp_seq (fdalloc_spec (f := wf) hu.2.1) fun r v hv => ?_
      cases r with
      | none =>
        obtain rfl := hv.2.2.1 rfl
        refine wp_seq (setOfile_spec hu.2.1 hq fd0 none) fun _ w hw => hclose w ?_
        convert hw.2.2 using 1
        simp [hfd, add_comm]
      | some fd1 => exact (wp_pure _).mpr (by simpa using hv.2.1)

end calls

/-- The system calls that deal with files. -/
inductive Call where
  | dup (fd : Fin NOFILE)
  | read (fd : Fin NOFILE) (n : ℕ)
  | write (fd : Fin NOFILE) (src : List UInt8)
  | close (fd : Fin NOFILE)
  | pipe (room : Bool)
  | link (old new : List UInt8)
  | unlink (path : List UInt8)
  | open (path : List UInt8) (omode : ℕ)
  | mkdir (path : List UInt8)
  | mknod (path : List UInt8) (major minor : ℕ)
  | chdir (path : List UInt8)
  | exec (path : List UInt8) (reads : List (ℕ × ℕ))
  | fork (c : Fin NPROC)
  | exit

def after {α : Type} (m : FsM α) (s : Fs) : Option Fs :=
  match m s with
  | .ok _ t => some t
  | .stop _ => none

def step (devsw : Devsw) (s : Fs) (a : Fin NPROC × Call) : Option Fs :=
  match a.2 with
  | .dup fd => after (sysDup a.1 fd) s
  | .read fd n => after (sysRead devsw a.1 fd n) s
  | .write fd src => after (sysWrite devsw a.1 fd src) s
  | .close fd => after (sysClose a.1 fd) s
  | .pipe room => after (sysPipe a.1 room) s
  | .link old new => after (sysLink devsw a.1 old new) s
  | .unlink path => after (sysUnlink devsw a.1 path) s
  | .open path omode => after (sysOpen devsw a.1 path omode) s
  | .mkdir path => after (sysMkdir devsw a.1 path) s
  | .mknod path major minor => after (sysMknod devsw a.1 path major minor) s
  | .chdir path => after (sysChdir devsw a.1 path) s
  | .exec path reads => after (sysExec devsw a.1 path reads) s
  | .fork c => if (s.proc c).isNone then after (sysFork a.1 c) s else none
  | .exit => after (sysExit a.1) s

/-- `userinit`: the first process starts in the root directory. -/
def userinit (devsw : Devsw) (p : Fin NPROC) : FsM Unit := do
  match ← namei devsw p [47] with
  | none => return ()
  | some ip => Prog.modify fun s =>
    { s with proc := Function.update s.proc p (some ⟨fun _ => none, ip⟩) }

section runs

variable {devsw : Devsw}

theorem exact_of_after {α : Type} {m : FsM α} (h : Stays m s)
    (ht : after m s = some t) : Exact t := by
  rw [after] at ht
  cases hm : m s with
  | ok a u =>
    rw [hm] at ht
    exact Option.some.inj ht ▸ wp_ok (fun _ t => Exact t) hm h
  | stop e =>
    rw [hm] at ht
    cases ht

theorem step_exact {a : Fin NPROC × Call} (h : Exact s) (ht : step devsw s a = some t) :
    Exact t := by
  obtain ⟨p, call⟩ := a
  cases call with
  | dup fd => exact exact_of_after (sysDup_exact h) ht
  | read fd n => exact exact_of_after (sysRead_exact n h) ht
  | write fd src => exact exact_of_after (sysWrite_exact src h) ht
  | close fd => exact exact_of_after (sysClose_exact h) ht
  | pipe room => exact exact_of_after (sysPipe_exact room h) ht
  | link old new => exact exact_of_after (h.stays (does_sysLink old new) fun _ => rfl) ht
  | unlink path => exact exact_of_after (h.stays (does_sysUnlink path) fun _ => rfl) ht
  | «open» path omode => exact exact_of_after (sysOpen_exact path omode h) ht
  | mkdir path => exact exact_of_after (h.stays (does_makeNode path _ _ _) fun _ => rfl) ht
  | mknod path major minor =>
    exact exact_of_after (h.stays (does_makeNode path _ _ _) fun _ => rfl) ht
  | chdir path => exact exact_of_after (sysChdir_exact path h) ht
  | exec path reads => exact exact_of_after (h.stays (does_sysExec path reads) fun _ => rfl) ht
  | fork c =>
    simp only [step] at ht
    split_ifs at ht with hc
    exact exact_of_after (sysFork_exact (Option.isNone_iff_eq_none.mp hc) h) ht
  | exit => exact exact_of_after (sysExit_exact h) ht

theorem userinit_exact (disk : Disk) (p : Fin NPROC) : Stays (userinit devsw p) (.boot disk) := by
  have hboot : Exact (.boot disk) := by
    refine ⟨?_, ?_, fun f _ => rfl, fun ip hip => by cases hip⟩
    · simp [descriptors, opened, Fs.boot, ← Pi.zero_def]
    · rw [show refs (.boot disk) = 0 from rfl]
      simp [users, fileInode, Fs.boot]
  refine wp_seq (hboot.does (does_namei [47])) fun r t ht => ?_
  cases r with
  | none => exact (wp_pure _).mpr (by simpa using ht.2)
  | some ip =>
    have hnone : t.proc p = none := by rw [ht.1.2, Fs.boot]
    refine wp_modify.mpr (ht.2.setProc ?_ ?_)
    · simp [hnone, opened]
    · simp [hnone]

end runs

/-- From boot on any disk, after every sequence of complete system calls of any processes, whatever
they return: the count of each open file is the number of descriptors that refer to it, the count of
each inode in the cache is the number of open files and current directories that refer to it, and no
inode is left locked. -/
theorem refcounts_exact (devsw : Devsw) (disk : Disk) (p : Fin NPROC) (s₀ s : Fs)
    (hboot : after (userinit devsw p) (.boot disk) = some s₀)
    (hs : Run.Reaches (step devsw) s₀ s) :
    (∀ f, (s.file f).ref = descriptors s f) ∧ (∀ ip, (s.inode ip).ref = users s ip) ∧
      ∀ ip, (s.inode ip).busy = false := by
  have hexact : Exact s := hs.invariant (fun s a t h ht => step_exact h ht)
    (exact_of_after (userinit_exact disk p) hboot)
  refine ⟨fun f => ?_, fun ip => ?_, fun ip => ?_⟩
  · simpa using congrFun hexact.files f
  · simpa [refs] using congrFun hexact.inodes ip
  · exact Bool.eq_false_iff.mpr fun hbusy => hexact.locked ip hbusy

/-- A pipe, a copy of its read end, and a child that closes one end and exits. -/
def forked : List (Fin NPROC × Call) :=
  [(0, .pipe true), (0, .dup ⟨0, by decide⟩), (0, .fork 1), (1, .close ⟨0, by decide⟩), (1, .exit),
    (0, .fork 1)]

theorem refcounts_exact_forked : ∃ s₀ s,
    after (userinit noDevices 0) (.boot fun _ => Bytes.zero) = some s₀ ∧
      Run.exec (step noDevices) s₀ forked = some s ∧ (s.file 0).ref = 4 ∧ descriptors s 0 = 4 ∧
      users s 0 = 2 := by
  have hrun : ((after (userinit noDevices 0) (.boot fun _ => Bytes.zero)).bind fun s₀ =>
      Run.exec (step noDevices) s₀ forked).map (fun s => ((s.file 0).ref, (s.inode 0).ref)) =
      some (4, 2) := by
    decide +kernel
  obtain ⟨s, hs, hrefs⟩ := Option.map_eq_some_iff.mp hrun
  obtain ⟨s₀, hboot, hs⟩ := Option.bind_eq_some_iff.mp hs
  obtain ⟨hfile, hinode⟩ := Prod.mk.inj hrefs
  obtain ⟨hfiles, hinodes, -⟩ := refcounts_exact noDevices _ 0 s₀ s hboot ⟨_, hs⟩
  exact ⟨s₀, s, hboot, hs, hfile, by rw [← hfiles, hfile], by rw [← hinodes, hinode]⟩

end Refs

end Xv6
