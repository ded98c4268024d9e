import Xv6.Proc.Grow
import Xv6.Vm.Copied
import Xv6.Vm.Removed

/-! What a `fork` that fails leaves behind: the free pages, the process table, and the references to
files and inodes. -/
namespace Xv6
open Prog Vm

namespace Kern

structure Files where
  kern : Kern
  ofile : ℕ → ℕ → Option ℕ
  cwd : ℕ → ℕ
  fileRef : ℕ → ℕ
  inodeRef : ℕ → ℕ

namespace Files

abbrev FilesM := Prog String Files

def filedup (f : ℕ) : FilesM ℕ := do
  let s ← Prog.get
  if s.fileRef f < 1 then Prog.stop "filedup"
  else do
    Prog.modify fun s => { s with fileRef := Function.update s.fileRef f (s.fileRef f + 1) }
    return f

def idup (ip : ℕ) : FilesM ℕ := do
  Prog.modify fun s => { s with inodeRef := Function.update s.inodeRef ip (s.inodeRef ip + 1) }
  return ip

/-- The turn of the loop of `fork` for the descriptor `fd`. -/
def dupFile (p np fd : ℕ) : FilesM Unit := do
  let s ← Prog.get
  match s.ofile p fd with
  | none => return ()
  | some f => do
    let f ← filedup f
    Prog.modify fun s => { s with
      ofile := Function.update s.ofile np (Function.update (s.ofile np) fd (some f)) }

def fork (k : Image) (p : ℕ) : FilesM (Option ℕ) := do
  match ← (Kern.fork k p).zoom Files.kern fun t s => { s with kern := t } with
  | none => return none
  | some np => do
    (List.range NOFILE).forM (dupFile p np)
    let s ← Prog.get
    let ip ← idup (s.cwd p)
    Prog.modify fun s => { s with cwd := Function.update s.cwd np ip }
    return some np

end Files

/-- The calls of `kalloc` by a `fork` that copies `n` pages. -/
def forkRequests (n : ℕ) : List Request := .page :: copyRequests n

/-- A slot is left, and memory runs out at a page table. -/
def LosesPages (s : Kern) (p d : ℕ) : Prop :=
  (∃ q < NPROC, (s.procs q).state = .unused) ∧
    (forkRequests (leading s.mem d 0 (pagesOf (s.procs p).sz)))[s.mem.free.length]? = some .table

def Restored (s t : Kern) : Prop :=
  (∀ f, f ∈ t.mem.free ↔ f ∈ s.mem.free) ∧ ∀ q, (t.procs q).state = (s.procs q).state

/-- A `fork` that fails leaves nothing behind. -/
def Files.FailsClean (s : Files) (r : Option ℕ) (t : Files) : Prop :=
  r = none → Restored s.kern t.kern ∧ t.fileRef = s.fileRef ∧ t.inodeRef = s.inodeRef

section forked

variable {k : Image} {s : Kern} {p : ℕ}

theorem state_setProc {m : Mem} {q : ℕ} {pr : Proc} (h : pr.state = (s.procs q).state) (u : ℕ) :
    (({ s with mem := m }.setProc q pr).procs u).state = (s.procs u).state := by
  by_cases hu : u = q
  · rw [hu, ← h]
    simp only [setProc, Function.update_self]
  · simp only [setProc, Function.update_of_ne hu]

theorem allocproc_takes (s : Kern) :
    wp allocproc s (fun r t =>
      (∀ np, r = some np → ∃ f rest, s.mem.free = f :: rest ∧ np < NPROC ∧
        (s.procs np).state = .unused ∧
        t = { s with mem := { s.mem with free := rest } }.setProc np
          { s.procs np with kstack := some f, state := .embryo }) ∧
      (r = none → ((∃ q < NPROC, (s.procs q).state = .unused) → s.mem.free = []) ∧ Restored s t))
      (fun _ => False) := by
  unfold allocproc
  rw [wp_bind, wp_get]
  cases hfind : (List.range NPROC).find? fun p => (s.procs p).state = .unused with
  | none =>
    dsimp only
    rw [wp_pure]
    refine ⟨nofun, fun _ => ⟨?_, fun f => Iff.rfl, fun q => rfl⟩⟩
    rintro ⟨q, hq, hunused⟩
    have := List.find?_eq_none.mp hfind q (List.mem_range.mpr hq)
    rw [hunused] at this
    exact absurd (decide_eq_true rfl) this
  | some np =>
    have hunused : (s.procs np).state = .unused := by simpa using List.find?_some hfind
    dsimp only
    rw [wp_bind, wp_store, wp_bind, wp_vm]
    refine wp_kalloc (fun hfree => ?_) fun f rest hfree => ?_
    · dsimp only
      rw [wp_bind, wp_store, wp_pure, setProc_again]
      exact ⟨nofun, fun _ => ⟨fun _ => hfree, fun f => Iff.rfl, state_setProc hunused.symm⟩⟩
    · dsimp only
      rw [wp_bind, wp_store, wp_pure, setProc_again]
      refine ⟨?_, nofun⟩
      intro q hq
      obtain rfl := Option.some.inj hq
      exact ⟨f, rest, hfree, List.mem_range.mp (List.mem_of_find?_eq_some hfind), hunused, rfl⟩

/-- The memory of the child that could not be made goes back, and so does its kernel stack. -/
theorem CopyFails.kfree {rs : List Request} {m t : Mem} {f : ℕ} {rest : List ℕ} {g : Page}
    (h : CopyFails rs { m with free := rest } t) (hfree : m.free = f :: rest) (hnew : f ∉ rest) :
    CopyFails (.page :: rs) m ((t.setPage f g).give f) := by
  have hgive : ((t.setPage f g).give f).free = f :: t.free := rfl
  cases h with
  | page hrs hall =>
    refine .page (by rw [hfree]; exact hrs) fun e => ?_
    rw [hgive, hfree, List.mem_cons, List.mem_cons, hall e]
  | table hrs hlost =>
    obtain ⟨e, he, hlost⟩ := hlost
    have he : e ∈ rest := he
    refine .table (by rw [hfree]; exact hrs) ⟨e, by rw [hfree]; exact List.mem_cons_of_mem f he, ?_⟩
    rw [hgive, List.mem_cons]
    rintro (rfl | hc)
    · exact hnew he
    · exact hlost hc

/-- How `fork` ends, by the request at which memory runs out. -/
theorem fork_ends {d : ℕ} (h : Inv k s) (hrun : s.Runs p) (hd : (s.procs p).pgdir = some d) :
    wp (fork k p) s
      (fun r t => (r = none → (Restored s t ↔ ¬LosesPages s p d)) ∧ (r ≠ none → ¬LosesPages s p d))
      (fun _ => ¬LosesPages s p d) := by
  obtain ⟨r, t, halloc, hsome, hnone⟩ := wp_total (allocproc_takes s)
  obtain ⟨ht, hembryo⟩ := (wp_of_eq halloc).mp (allocproc_spec h)
  unfold fork
  rw [wp_bind, wp_of_eq halloc]
  cases r with
  | none =>
    obtain ⟨hnil, hrest⟩ := hnone rfl
    dsimp only
    rw [wp_pure]
    refine ⟨fun _ => iff_of_true hrest fun hloses => ?_, fun hc => absurd rfl hc⟩
    have htable := hloses.2
    rw [hnil hloses.1] at htable
    cases htable
  | some np =>
    obtain ⟨f, rest, hfree, hslot, hunused, heq⟩ := hsome np rfl
    have hne : p ≠ np := by
      rintro rfl
      rw [hrun] at hunused
      cases hunused
    have hproc : t.procs p = s.procs p := by
      rw [heq]
      simp only [setProc, Function.update_of_ne hne]
    have hstack : (t.procs np).kstack = some f := by
      rw [heq]
      simp only [setProc, Function.update_self]
    have hmem : t.mem = { s.mem with free := rest } := by rw [heq]; rfl
    have hdir : t.dir (.proc np) = none := Proc.dir_eq_none (Or.inr (hembryo np rfl))
    have hpar : t.dir (.proc p) = some d := by
      change (t.procs p).dir = _
      rw [hproc, Proc.dir_eq (Or.inl hrun), hd]
    have hpool : k.Pool f := h.owns.pool f (by rw [hfree]; exact List.mem_cons_self)
    have hnew : f ∉ rest := by
      have := h.owns.excl.nodup
      rw [hfree] at this
      exact (List.nodup_cons.mp this).1
    have hends := copyuvm_ends ht.owns hdir hpar (ht.size p).le rfl
    have hlead : leading t.mem d 0 (pagesOf (t.procs p).sz) =
        leading s.mem d 0 (pagesOf (s.procs p).sz) := by
      rw [hproc, hmem]
      exact leading_congr fun u _ _ => pteAt_free rest d u
    have hlen : t.mem.free.length = rest.length := by rw [hmem]
    rw [hlead, hlen] at hends
    have hloses : LosesPages s p d ↔
        (.page :: copyRequests (leading s.mem d 0 (pagesOf (s.procs p).sz)))[s.mem.free.length]? =
          some .table := by
      rw [LosesPages, and_iff_right ⟨np, hslot, hunused⟩, forkRequests]
    generalize copyRequests (leading s.mem d 0 (pagesOf (s.procs p).sz)) = rs at hends hloses
    have hrest : rs[rest.length]? = none → ¬LosesPages s p d := by
      intro hend
      rw [hloses, hfree, List.length_cons, List.getElem?_cons_succ, hend]
      rintro ⟨⟩
    dsimp only
    rw [wp_bind, wp_proc, wp_bind, wp_proc, show (t.procs p).pgdir = some d by rw [hproc, hd]]
    dsimp only
    rw [wp_bind, wp_vm]
    refine wp_mono hends ?_ ?_
    · rintro r m ⟨hfails, hmade⟩
      cases r with
      | none =>
        dsimp only
        rw [wp_bind, hstack, kfree, wp_vm, wp_kfree hpool, wp_bind, wp_store, wp_pure]
        refine ⟨fun _ => ?_, fun hc => absurd rfl hc⟩
        have hstate : ∀ q, (({ t with mem := (m.setPage f (fill 1)).give f }.setProc np
            { t.procs np with pgdir := none, kstack := none, state := .unused }).procs q).state =
              (s.procs q).state := by
          rw [heq, setProc_again]
          exact state_setProc hunused.symm
        have hfails := hfails rfl
        rw [hmem] at hfails
        have hfails := CopyFails.kfree (g := fill 1) hfails hfree hnew
        rw [Restored, and_iff_left hstate]
        cases hfails with
        | page hrs hall =>
          refine iff_of_true hall ?_
          rw [hloses, hrs]
          rintro ⟨⟩
        | table hrs hlost =>
          obtain ⟨g, hg, hlost⟩ := hlost
          exact iff_of_false (fun hc => hlost ((hc g).mpr hg)) fun hc => hc (hloses.mpr hrs)
      | some e =>
        dsimp only
        rw [wp_bind, wp_store, wp_pure]
        exact ⟨(by rintro ⟨⟩), fun _ => hrest (hmade (by rintro ⟨⟩))⟩
    · exact fun _ hend => hrest hend

section

variable {s : Files} {d : ℕ}

theorem fork_not_clean (h : Inv k s.kern) (hrun : s.kern.Runs p)
    (hd : (s.kern.procs p).pgdir = some d) (hloses : LosesPages s.kern p d) :
    ¬wp (Files.fork k p) s (Files.FailsClean s) (fun _ => True) := by
  unfold Files.fork
  rw [wp_bind, wp_zoom]
  intro hclean
  refine wp_absurd hclean (wp_mono (fork_ends h hrun hd) ?_ fun _ hne => hne hloses)
  rintro r t ⟨hfails, hmade⟩
  cases r with
  | none =>
    dsimp only
    rw [wp_pure]
    exact fun hc => (hfails rfl).mp (hc rfl).1 hloses
  | some np => exact absurd hloses (hmade nofun)

/-- A `fork` that fails leaves nothing behind if and only if memory does not run out at a page
table. -/
theorem fork_fails_clean_iff (h : Inv k s.kern) (hrun : s.kern.Runs p)
    (hd : (s.kern.procs p).pgdir = some d) :
    wp (Files.fork k p) s (Files.FailsClean s) (fun _ => True) ↔ ¬LosesPages s.kern p d := by
  refine ⟨fun hclean hloses => fork_not_clean h hrun hd hloses hclean, fun hne => ?_⟩
  unfold Files.fork
  rw [wp_bind, wp_zoom]
  refine wp_mono (fork_ends h hrun hd) ?_ fun _ _ => trivial
  rintro r t ⟨hfails, -⟩
  cases r with
  | none =>
    dsimp only
    rw [wp_pure]
    exact fun _ => ⟨(hfails rfl).mpr hne, rfl, rfl⟩
  | some np =>
    dsimp only
    rw [wp_bind]
    refine wp_post (wp_trivial _ _) fun _ u _ => ?_
    rw [wp_bind, wp_get, wp_bind, Files.idup, wp_bind, wp_modify, wp_pure, wp_bind,
      wp_modify, wp_pure]
    nofun

end

end forked

def onlyFiles (t : Mem) : Files where
  kern := onlyProc t 4096
  ofile _ _ := none
  cwd _ := 0
  fileRef _ := 0
  inodeRef _ := 1

theorem exists_onlyFiles (rest : List ℕ) (hrest : rest ≠ []) (hfree : (1024 :: 1025 :: rest).Nodup)
    (hpool : ∀ f ∈ 1024 :: 1025 :: rest, Spaces.sampleImage.Pool f) :
    ∃ t, Sized Spaces.sampleImage (onlyFiles t).kern 0 1024 ∧ rest.length = t.free.length + 1 := by
  have hdir := (sized_blank hfree hpool).holder
  obtain ⟨t, howns, hodd, hzero, -, hlen⟩ := exists_onePage hdir dir_onlyProc (spot_onlyProc _ _)
    rest hrest hfree hpool (v := 0) (by decide)
  refine ⟨t, sized_onePage howns fun u hu => ?_, hlen⟩
  by_cases h0 : u = 0
  · rw [h0]
    exact iff_of_true hodd one_pos
  · rw [hzero u (by rw [userPages_eq] at hu; omega) h0]
    omega

theorem losesPages_onlyFiles {t : Mem} (h : Sized Spaces.sampleImage (onlyFiles t).kern 0 1024) :
    LosesPages (onlyFiles t).kern 0 1024 ↔ (forkRequests 1)[t.free.length]? = some .table := by
  have hslot : ∃ q < NPROC, ((onlyFiles t).kern.procs q).state = .unused :=
    ⟨1, by decide, congrArg Proc.state (procs_onlyProc_of_ne t 4096 one_ne_zero)⟩
  have hsz : ((onlyFiles t).kern.procs 0).sz = 4096 := congrArg Proc.sz (procs_onlyProc t 4096)
  have hpage := (h.pages 0 (by decide)).mpr (by rw [hsz]; decide)
  rw [LosesPages, and_iff_right hslot, hsz, show pagesOf 4096 = 1 from rfl, leading, if_pos hpage,
    leading]
  rfl

/-- Without memory for the page of the child. -/
theorem fork_fails_clean_page : ∃ t, Sized Spaces.sampleImage (onlyFiles t).kern 0 1024 ∧
    wp (Files.fork Spaces.sampleImage 0) (onlyFiles t) (Files.FailsClean (onlyFiles t))
      (fun _ => True) := by
  obtain ⟨t, hsized, hlen⟩ := exists_onlyFiles (List.range' 1026 67) (by decide) (by decide)
    (by decide)
  refine ⟨t, hsized, (fork_fails_clean_iff hsized.inv hsized.runs hsized.dir).mpr ?_⟩
  obtain hfree : t.free.length = 66 := by
    rw [List.length_range'] at hlen
    omega
  rw [losesPages_onlyFiles hsized, hfree]
  decide

/-- Without a page table for the kernel half the directory of the child is lost. -/
theorem fork_loses_directory : ∃ t, Inv Spaces.sampleImage (onlyFiles t).kern ∧
    (onlyFiles t).kern.Runs 0 ∧ ((onlyFiles t).kern.procs 0).sz = 4096 ∧
    ¬wp (Files.fork Spaces.sampleImage 0) (onlyFiles t) (Files.FailsClean (onlyFiles t))
      (fun _ => True) := by
  obtain ⟨t, hsized, hlen⟩ := exists_onlyFiles [1026, 1027, 1028] (by decide) (by decide)
    (by decide)
  refine ⟨t, hsized.inv, hsized.runs, congrArg Proc.sz (procs_onlyProc t 4096),
    fork_not_clean hsized.inv hsized.runs hsized.dir ?_⟩
  obtain hfree : t.free.length = 2 := Nat.succ.inj hlen.symm
  rw [losesPages_onlyFiles hsized, hfree]
  rfl

end Kern
end Xv6
