import Xv6.Proc.Exec
import Xv6.Proc.Kern

/-! Every page has one owner, over all the calls that allocate and free pages. -/
namespace Xv6
open Prog Vm

/-- Who has a page directory: a caller outside `proc.c`, a process, or an `exec` that is making
an image. -/
inductive Holder where
  | raw (n : ℕ)
  | proc (p : ℕ)
  | image
  deriving DecidableEq

/-- What a page outside the directories is for. -/
inductive Spot where
  | reserve (f : ℕ)
  | raw (n : ℕ)
  | kstack (p : ℕ)
  | pipe (i : ℕ)
  deriving DecidableEq

/-- The directory of a process, which it has until it is waited for. -/
def Kern.Proc.dir (pr : Proc) : Option ℕ :=
  match pr.state with
  | .unused => none
  | .embryo => none
  | .runnable => pr.pgdir
  | .zombie => pr.pgdir

namespace Kern

def dir (s : Kern) : Holder → Option ℕ
  | .raw n => s.dirs n
  | .proc p => (s.procs p).dir
  | .image => none

def spot (s : Kern) : Spot → Option ℕ
  | .reserve f => s.reserve f
  | .raw n => s.raw n
  | .kstack p => (s.procs p).kstack
  | .pipe i => (s.pipes i).map Pipe.page

theorem dir_setProc (s : Kern) (p : ℕ) (pr : Proc) :
    (s.setProc p pr).dir = Function.update s.dir (.proc p) pr.dir := by
  funext x
  cases x with
  | raw n => rw [Function.update_of_ne (by simp)]; rfl
  | image => rw [Function.update_of_ne (by simp)]; rfl
  | proc q =>
    by_cases hq : q = p
    · rw [hq, Function.update_self]
      simp only [dir, setProc, Function.update_self]
    · rw [Function.update_of_ne (by simpa using hq)]
      simp only [dir, setProc, Function.update_of_ne hq]

theorem spot_setProc (s : Kern) (p : ℕ) (pr : Proc) :
    (s.setProc p pr).spot = Function.update s.spot (.kstack p) pr.kstack := by
  funext y
  cases y with
  | reserve f => rw [Function.update_of_ne (by simp)]; rfl
  | raw n => rw [Function.update_of_ne (by simp)]; rfl
  | pipe i => rw [Function.update_of_ne (by simp)]; rfl
  | kstack q =>
    by_cases hq : q = p
    · rw [hq, Function.update_self]
      simp only [spot, setProc, Function.update_self]
    · rw [Function.update_of_ne (by simpa using hq)]
      simp only [spot, setProc, Function.update_of_ne hq]

theorem spot_setPipe (s : Kern) (i : ℕ) (pi : Option Pipe) :
    (s.setPipe i pi).spot = Function.update s.spot (.pipe i) (pi.map Pipe.page) := by
  funext y
  cases y with
  | reserve f => rw [Function.update_of_ne (by simp)]; rfl
  | raw n => rw [Function.update_of_ne (by simp)]; rfl
  | kstack p => rw [Function.update_of_ne (by simp)]; rfl
  | pipe j =>
    by_cases hj : j = i
    · rw [hj, Function.update_self]
      simp only [spot, setPipe, Function.update_self]
    · rw [Function.update_of_ne (by simpa using hj)]
      simp only [spot, setPipe, Function.update_of_ne hj]

/-- A page is free, or held at one place; no process is larger than the user half. -/
structure Inv (k : Image) (s : Kern) : Prop where
  owns : Owns k s.mem s.dir s.spot
  size : ∀ p, (s.procs p).sz < KERNBASE

namespace Inv

variable {k : Image} {s : Kern} {m : Mem} {p : ℕ} {pr : Proc}

theorem setMem (h : Inv k s) (howns : Owns k m s.dir s.spot) : Inv k { s with mem := m } :=
  ⟨howns, h.size⟩

theorem setProc {d f : Option ℕ} (h : Inv k s) (hsz : pr.sz < KERNBASE) (hd : pr.dir = d)
    (hf : pr.kstack = f)
    (howns : Owns k m (Function.update s.dir (.proc p) d) (Function.update s.spot (.kstack p) f)) :
    Inv k ({ s with mem := m }.setProc p pr) := by
  refine ⟨?_, ?_⟩
  · rw [dir_setProc, spot_setProc, hd, hf]
    exact howns
  · intro q
    by_cases hq : q = p
    · simp only [Kern.setProc, hq, Function.update_self]
      exact hsz
    · simp only [Kern.setProc, Function.update_of_ne hq]
      exact h.size q

end Inv

variable {k : Image} {s : Kern} {p : ℕ}

theorem dir_self (s : Kern) (p : ℕ) :
    Function.update s.dir (.proc p) (s.procs p).dir = s.dir := Function.update_eq_self _ _

theorem spot_self (s : Kern) (p : ℕ) :
    Function.update s.spot (.kstack p) (s.procs p).kstack = s.spot := Function.update_eq_self _ _

theorem wp_vm {α : Type} {m : VmM α} {Q : α → Kern → Prop} {E : String → Prop} :
    wp (vm m) s Q E ↔ wp m s.mem (fun a t => Q a { s with mem := t }) E := wp_zoom

theorem wp_proc {Q : Proc → Kern → Prop} {E : String → Prop} :
    wp (proc p) s Q E ↔ Q (s.procs p) s := by
  unfold proc
  rw [wp_bind, wp_get, wp_pure]

theorem wp_store {pr : Proc} {Q : Unit → Kern → Prop} {E : String → Prop} :
    wp (store p pr) s Q E ↔ Q () (s.setProc p pr) := wp_modify

theorem kalloc_spec {ι κ : Type} [DecidableEq κ] {t : Mem} {D : ι → Option ℕ} {O : κ → Option ℕ}
    (h : Owns k t D O) (y : κ) :
    wp kalloc t (fun r t' => (r = none ∧ Owns k t' D O) ∨
      ∃ f, r = some f ∧ Owns k t' D (Function.update O y (some f))) (fun _ => True) := by
  refine wp_kalloc (fun _ => Or.inl ⟨rfl, h⟩) ?_
  intro f rest hfree
  refine Or.inr ⟨f, rfl, ?_⟩
  rw [← give_tail hfree] at h
  exact h.put y

theorem kfree_spec {ι κ : Type} [DecidableEq ι] [DecidableEq κ] {t : Mem} {D : ι → Option ℕ}
    {O : κ → Option ℕ} {y : κ} {f : ℕ} (h : Owns k t D O) (hy : O y = some f) :
    wp (Vm.kfree k f) t (fun _ t' => Owns k t' D (Function.update O y none)) (fun _ => True) := by
  have hpool : k.Pool f := h.held (.other y) f hy
  rw [wp_kfree hpool]
  exact ((h.takeOut hy).kfree (fill 1)).1

theorem setProc_again (m : Mem) (a b : Proc) :
    { s.setProc p a with mem := m }.setProc p b = { s with mem := m }.setProc p b := by
  simp only [setProc, Function.update_idem]

theorem Proc.dir_eq_none {pr : Proc} (h : pr.state = .unused ∨ pr.state = .embryo) :
    pr.dir = none := by
  unfold Proc.dir
  rcases h with h | h <;> rw [h]

theorem Proc.dir_eq {pr : Proc} (h : pr.state = .runnable ∨ pr.state = .zombie) :
    pr.dir = pr.pgdir := by
  unfold Proc.dir
  rcases h with h | h <;> rw [h]

theorem allocproc_spec (h : Inv k s) :
    wp allocproc s (fun r t => Inv k t ∧ ∀ p, r = some p → (t.procs p).state = .embryo)
      (fun _ => True) := by
  unfold allocproc
  rw [wp_bind, wp_get]
  cases hfind : (List.range NPROC).find? fun p => (s.procs p).state = .unused with
  | none =>
    dsimp only
    rw [wp_pure]
    exact ⟨h, by simp⟩
  | some p =>
    have hunused : (s.procs p).state = .unused := by simpa using List.find?_some hfind
    have hdir : (s.procs p).dir = none := Proc.dir_eq_none (Or.inl hunused)
    dsimp only
    rw [wp_bind, wp_store, wp_bind, wp_vm]
    refine wp_mono (kalloc_spec h.owns (.kstack p)) ?_ (fun _ he => he)
    rintro r m (⟨rfl, howns⟩ | ⟨f, rfl, howns⟩)
    · dsimp only
      rw [wp_bind, wp_store, wp_pure, setProc_again]
      refine ⟨h.setProc (h.size p) ((Proc.dir_eq_none (Or.inl rfl)).trans hdir.symm) rfl ?_,
        by simp⟩
      rw [dir_self]
      exact howns.forget (.kstack p)
    · dsimp only
      rw [wp_bind, wp_store, wp_pure, setProc_again]
      refine ⟨h.setProc (h.size p) ((Proc.dir_eq_none (Or.inr rfl)).trans hdir.symm) rfl ?_, ?_⟩
      · rw [dir_self]
        exact howns
      · intro q hq
        rw [← Option.some.inj hq]
        simp only [setProc, Function.update_self]

theorem userinit_spec (h : Inv k s) (initcode : List UInt8) :
    wp (userinit k initcode) s (fun _ t => Inv k t) (fun _ => True) := by
  unfold userinit
  refine wp_seq (allocproc_spec h) ?_
  rintro r t ⟨ht, hstate⟩
  cases r with
  | none =>
    dsimp only
    exact (wp_stop _).mpr trivial
  | some p =>
    have hdir : (t.procs p).dir = none := Proc.dir_eq_none (Or.inr (hstate p rfl))
    dsimp only
    rw [wp_bind, wp_modify, wp_bind, wp_proc, wp_bind, wp_vm]
    refine wp_mono (setupkvm_spec (x := Holder.proc p) ht.owns hdir) ?_ (fun _ _ => trivial)
    rintro r m ⟨-, -, hsome⟩
    cases r with
    | none =>
      dsimp only
      exact (wp_stop _).mpr trivial
    | some d =>
      dsimp only
      rw [wp_bind, wp_vm]
      refine wp_mono (inituvm_spec (hsome d rfl).1.owns (Function.update_self ..)) ?_
        (fun _ _ => trivial)
      intro _ m' hch
      rw [wp_store]
      refine Inv.setProc (s := { t with initproc := some p }) ⟨ht.owns, ht.size⟩
        (show PGSIZE < KERNBASE by decide) rfl rfl ?_
      show Owns k m' (Function.update t.dir (.proc p) (some d))
        (Function.update t.spot (.kstack p) (t.procs p).kstack)
      rw [spot_self]
      exact hch.owns

theorem resize_spec {ι κ : Type} [DecidableEq ι] [DecidableEq κ] {t : Mem} {D : ι → Option ℕ}
    {O : κ → Option ℕ} {x : ι} {d sz : ℕ} (h : Owns k t D O) (hx : D x = some d)
    (hsz : sz < KERNBASE) (n : ℤ) :
    wp (resize k d sz n) t (fun r t' => Owns k t' D O ∧ r < KERNBASE) (fun _ => True) := by
  have hpos : 0 < KERNBASE := by decide
  unfold resize
  split_ifs
  · refine wp_mono (allocuvm_spec h hx) ?_ (fun _ _ => trivial)
    intro r t' halloc
    refine ⟨(halloc.userChange h).owns, ?_⟩
    cases halloc with
    | refused _ => exact hpos
    | smaller _ _ => exact hsz
    | grown hlt _ _ _ => exact hlt
    | failed _ _ _ _ _ _ => exact hpos
  · refine wp_mono (deallocuvm_spec h hx hsz.le) ?_ (fun _ _ => trivial)
    rintro r t' ⟨hr, hcl⟩
    exact ⟨hcl.owns, by omega⟩

theorem growproc_spec (h : Inv k s) (hrun : (s.procs p).state = .runnable) (n : ℤ) :
    wp (growproc k p n) s (fun _ t => Inv k t) (fun _ => True) := by
  have hdir : (s.procs p).dir = (s.procs p).pgdir := Proc.dir_eq (Or.inl hrun)
  unfold growproc
  rw [wp_bind, wp_proc]
  cases hd : (s.procs p).pgdir with
  | none =>
    dsimp only
    exact (wp_stop _).mpr trivial
  | some d =>
    dsimp only
    by_cases hn : n = 0
    · rw [if_pos hn, wp_pure]
      exact h
    · rw [if_neg hn, wp_bind, wp_vm]
      refine wp_mono (resize_spec (x := Holder.proc p) h.owns (hdir.trans hd) (h.size p) n) ?_
        (fun _ he => he)
      rintro sz m ⟨howns, hsz⟩
      by_cases hz : sz = 0
      · rw [if_pos hz, wp_pure]
        exact h.setMem howns
      · rw [if_neg hz, wp_bind, wp_store, wp_pure]
        refine h.setProc hsz (d := (s.procs p).dir) (f := (s.procs p).kstack) ?_ rfl ?_
        · rw [hdir, hd]
          exact Proc.dir_eq (Or.inl hrun)
        · rw [dir_self, spot_self]
          exact howns

theorem fork_spec (h : Inv k s) :
    wp (fork k p) s (fun _ t => Inv k t) (fun _ => True) := by
  unfold fork
  refine wp_seq (allocproc_spec h) ?_
  rintro r t ⟨ht, hstate⟩
  cases r with
  | none =>
    dsimp only
    rw [wp_pure]
    exact ht
  | some np =>
    have hdir : (t.procs np).dir = none := Proc.dir_eq_none (Or.inr (hstate np rfl))
    dsimp only
    rw [wp_bind, wp_proc, wp_bind, wp_proc]
    cases hd : (t.procs p).pgdir with
    | none =>
      dsimp only
      exact (wp_stop _).mpr trivial
    | some d =>
      dsimp only
      rw [wp_bind, wp_vm]
      refine wp_mono (copyuvm_spec (x := Holder.proc np) ht.owns hdir (ht.size p).le) ?_
        (fun _ he => he)
      rintro r m ⟨-, hnone, hsome⟩
      cases r with
      | none =>
        dsimp only
        cases hk : (t.procs np).kstack with
        | none =>
          rw [wp_bind]
          exact (wp_stop _).mpr trivial
        | some f =>
          rw [wp_bind, kfree, wp_vm]
          refine wp_mono (kfree_spec (y := Spot.kstack np) (hnone rfl) hk) ?_ (fun _ he => he)
          intro _ m' howns
          rw [wp_bind, wp_store, wp_pure]
          refine ht.setProc (ht.size np) ((Proc.dir_eq_none (Or.inl rfl)).trans hdir.symm) rfl ?_
          rw [dir_self]
          exact howns
      | some e =>
        dsimp only
        rw [wp_bind, wp_store, wp_pure]
        refine ht.setProc (ht.size p) rfl rfl ?_
        rw [spot_self]
        exact (hsome e rfl).1

theorem Owns.moveDir {ι κ : Type} [DecidableEq ι] {t : Mem} {D : ι → Option ℕ} {O : κ → Option ℕ}
    {x y : ι} {d : ℕ} (hxy : y ≠ x) (hx : D x = none)
    (h : Owns k t (Function.update (Function.update D x (some d)) y none) O) :
    Owns k t (Function.update D y (some d)) O := by
  have hre := h.reindex (Equiv.swap x y).injective
  have hswap : (fun z => Function.update (Function.update D x (some d)) y none (Equiv.swap x y z)) =
      Function.update D y (some d) := by
    funext z
    by_cases hzy : z = y
    · rw [hzy, Equiv.swap_apply_right, Function.update_self, Function.update_of_ne hxy.symm,
        Function.update_self]
    · rw [Function.update_of_ne hzy]
      by_cases hzx : z = x
      · rw [hzx, Equiv.swap_apply_left, Function.update_self, hx]
      · rw [Equiv.swap_apply_of_ne_of_ne hzx hzy, Function.update_of_ne hzy,
          Function.update_of_ne hzx]
  rw [hswap] at hre
  exact hre

theorem exec_keeps (h : Inv k s) (hrun : (s.procs p).state = .runnable) {file : ProgFile}
    {argv : List (List UInt8)} (hfile : file.Wrapping → file.Loadable s.mem.free.length) :
    wp (exec k p file argv) s (fun _ t => Inv k t) (fun _ => True) := by
  have hdir : (s.procs p).dir = (s.procs p).pgdir := Proc.dir_eq (Or.inl hrun)
  cases hd : (s.procs p).pgdir with
  | none =>
    have hexec : exec k p file argv s = .stop "trap" := by
      unfold exec
      rw [hd]
    exact (wp_of_stop hexec).mpr trivial
  | some old =>
    have hspec := Vm.exec_spec h.owns (x := Holder.image) rfl
      (show s.dir (.proc p) = some old from hdir.trans hd) file argv
    cases hvm : Vm.exec k old file argv (s.mem, []) with
    | stop e =>
      have hexec : exec k p file argv s = .stop e.1 := by
        unfold exec
        rw [hd]
        dsimp only
        rw [hvm]
      exact (wp_of_stop hexec).mpr trivial
    | ok r t =>
      rw [wp_of_eq hvm] at hspec
      have hexeced : Execed k s.dir s.spot .image (.proc p) file r t := by
        rcases hspec with ⟨-, hex⟩ | ⟨hload, hwrap, -⟩
        · exact hex
        · exact absurd (hfile hwrap) hload
      cases r with
      | none =>
        have hexec : exec k p file argv s = .ok false { s with mem := t.1 } := by
          unfold exec
          rw [hd]
          dsimp only
          rw [hvm]
        exact (wp_of_eq hexec).mpr (h.setMem (hexeced.failed rfl))
      | some q =>
        obtain ⟨d, sz, sp⟩ := q
        have hexec : exec k p file argv s = .ok true ({ s with mem := t.1 }.setProc p
            { s.procs p with pgdir := some d, sz := sz }) := by
          unfold exec
          rw [hd]
          dsimp only
          rw [hvm]
        obtain ⟨-, hsz, howns⟩ := hexeced.made _ rfl
        refine (wp_of_eq hexec).mpr (h.setProc hsz (Proc.dir_eq (Or.inl hrun)) rfl ?_)
        rw [spot_self]
        exact Owns.moveDir (by simp) rfl howns

/-- `exec` stops at a null page table entry only if its arguments come to one. -/
theorem exec_not_null (h : Inv k s) (hrun : (s.procs p).state = .runnable) {file : ProgFile}
    {argv : List (List UInt8)} (hfile : file.Wrapping → file.Loadable s.mem.free.length)
    (hargs : ¬Exec.NullArgs file s.mem.free.length argv) :
    exec k p file argv s ≠ .stop "null pte" := by
  unfold exec
  cases hd : (s.procs p).pgdir with
  | none =>
    intro hstop
    injection hstop with hmsg
    exact absurd hmsg (by decide)
  | some old =>
    have hdir : s.dir (.proc p) = some old := (Proc.dir_eq (Or.inl hrun)).trans hd
    dsimp only
    cases hvm : Vm.exec k old file argv (s.mem, []) with
    | stop e =>
      intro hstop
      injection hstop with hmsg
      exact hargs (Exec.nullArgs_of_stop h.owns (x := .image) rfl hdir hfile hvm hmsg)
    | ok r t => cases r <;> simp

theorem Inv.abandon (h : Inv k s) (p : ℕ) : Inv k (s.abandon p) := by
  have hdir : (s.abandon p).dir = s.dir := by
    funext x
    cases x with
    | raw n => rfl
    | image => rfl
    | proc q => rfl
  have hspot : (s.abandon p).spot = s.spot := by
    funext y
    cases y with
    | reserve f => rfl
    | raw n => rfl
    | pipe i => rfl
    | kstack q => rfl
  refine ⟨?_, h.size⟩
  rw [hdir, hspot]
  exact h.owns

theorem exit_spec (h : Inv k s) (hrun : (s.procs p).state = .runnable) :
    wp (exit p) s (fun _ t => Inv k t) (fun _ => True) := by
  unfold exit
  rw [wp_bind, wp_get]
  by_cases hinit : s.initproc = some p
  · rw [if_pos hinit]
    exact (wp_stop _).mpr trivial
  · rw [if_neg hinit, wp_bind, wp_modify, wp_bind, wp_proc, wp_store]
    have hab := h.abandon p
    have hdir : ((s.abandon p).procs p).dir = ((s.abandon p).procs p).pgdir :=
      Proc.dir_eq (Or.inl hrun)
    refine hab.setProc (m := s.mem) (h.size p) ((Proc.dir_eq (Or.inr rfl)).trans hdir.symm) rfl ?_
    rw [dir_self, spot_self]
    exact hab.owns

theorem wait_spec (h : Inv k s) : wp (wait k p) s (fun _ t => Inv k t) (fun _ => True) := by
  unfold wait
  rw [wp_bind, wp_get]
  cases hfind : (List.range NPROC).find? fun q =>
    (s.procs q).parent = some p ∧ (s.procs q).state = .zombie with
  | none =>
    dsimp only
    rw [wp_pure]
    exact h
  | some q =>
    have hz : (s.procs q).parent = some p ∧ (s.procs q).state = .zombie := by
      simpa using List.find?_some hfind
    have hdir : (s.procs q).dir = (s.procs q).pgdir := Proc.dir_eq (Or.inr hz.2)
    dsimp only
    cases hk : (s.procs q).kstack with
    | none =>
      rw [wp_bind]
      exact (wp_stop _).mpr trivial
    | some f =>
      rw [wp_bind, kfree, wp_vm]
      refine wp_mono (kfree_spec (y := Spot.kstack q) h.owns hk) ?_ (fun _ he => he)
      intro _ m howns
      rw [wp_bind, wp_store, wp_bind]
      cases hd : (s.procs q).pgdir with
      | none => exact (wp_stop _).mpr trivial
      | some d =>
        rw [freevm, wp_vm]
        refine wp_mono (freevm_spec (x := Holder.proc q) howns (hdir.trans hd)) ?_
          (fun _ _ => trivial)
        rintro _ m' ⟨howns', -⟩
        rw [wp_bind, wp_store, wp_pure, setProc_again]
        exact h.setProc (h.size q) rfl rfl howns'

theorem pipealloc_spec (h : Inv k s) (i : ℕ) :
    wp (pipealloc i) s (fun _ t => Inv k t) (fun _ => True) := by
  unfold pipealloc
  rw [wp_bind, wp_vm]
  refine wp_mono (kalloc_spec h.owns (.pipe i)) ?_ (fun _ he => he)
  rintro r m (⟨rfl, howns⟩ | ⟨f, rfl, howns⟩)
  · dsimp only
    rw [wp_pure]
    exact h.setMem howns
  · dsimp only
    rw [wp_bind, wp_modify, wp_pure]
    refine ⟨?_, h.size⟩
    rw [spot_setPipe]
    exact howns

theorem pipeclose_spec (h : Inv k s) (i : ℕ) (writable : Bool) :
    wp (pipeclose k i writable) s (fun _ t => Inv k t) (fun _ => True) := by
  unfold pipeclose
  rw [wp_bind, wp_get]
  cases hi : s.pipes i with
  | none => exact (wp_stop _).mpr trivial
  | some pi =>
    have hspot : s.spot (.pipe i) = some pi.page := by
      rw [spot, hi]
      rfl
    dsimp only
    split_ifs
    · rw [wp_bind, wp_vm]
      refine wp_mono (kfree_spec h.owns hspot) ?_ (fun _ he => he)
      intro _ m howns
      rw [wp_modify]
      refine ⟨?_, h.size⟩
      rw [spot_setPipe]
      exact howns
    · rw [wp_modify]
      refine ⟨?_, h.size⟩
      rw [spot_setPipe, Option.map_some, ← hspot, Function.update_eq_self]
      exact h.owns

end Kern

/-- A call that allocates or frees pages. The first ones are the calls of `kalloc.c` and `vm.c`
by a caller of its own, `write` is a process that fills one of its pages. -/
inductive PageCall where
  | kinit1
  | kinit2
  | kalloc (n : ℕ)
  | kfree (n : ℕ)
  | setupkvm (n : ℕ)
  | allocuvm (n oldsz newsz : ℕ)
  | deallocuvm (n oldsz newsz : ℕ)
  | copyuvm (n m sz : ℕ)
  | freevm (n : ℕ)
  | userinit (initcode : List UInt8)
  | fork (p : ℕ)
  | exec (p : ℕ) (file : ProgFile) (argv : List (List UInt8))
  | sbrk (p : ℕ) (n : ℤ)
  | exit (p : ℕ)
  | wait (p : ℕ)
  | pipe (i : ℕ)
  | pipeclose (i : ℕ) (writable : Bool)
  | write (p v : ℕ) (page : Page)

namespace Kern

def boot (k : Image) (page : ℕ → Page) : Kern where
  mem := ⟨page, []⟩
  reserve f := if k.Pool f then some f else none
  raw _ := none
  dirs _ := none
  procs _ := ⟨.unused, 0, none, none, none⟩
  initproc := none
  pipes _ := none

def after {α : Type} (s : Kern) (m : KernM α) : Option Kern :=
  match m s with
  | .ok _ t => some t
  | .stop _ => none

def kinit (a n : ℕ) (m : VmM Unit) : KernM Unit := do
  let s ← Prog.get
  if ∀ i < n, s.reserve (a + i) = some (a + i) then do
    vm m
    Prog.modify fun t => { t with reserve := released t.reserve id a n }
  else panic "kinit"

def setDir (n : ℕ) (d : Option ℕ) : KernM Unit :=
  Prog.modify fun s => { s with dirs := Function.update s.dirs n d }

def setRaw (n : ℕ) (f : Option ℕ) : KernM Unit :=
  Prog.modify fun s => { s with raw := Function.update s.raw n f }

def Runs (s : Kern) (p : ℕ) : Prop := (s.procs p).state = .runnable

instance (s : Kern) (p : ℕ) : Decidable (s.Runs p) := by
  unfold Runs
  infer_instance

/-- One call, if it may be made and does not panic: a process that makes one is alive, pages
and directories are freed by the caller that has them, and each end of a pipe is closed once. -/
def step (k : Image) (s : Kern) : PageCall → Option Kern
  | .kinit1 => s.after (kinit k.firstFrame (1024 - k.firstFrame) (Vm.kinit1 k))
  | .kinit2 => s.after (kinit 1024 (0xE000 - 1024) (Vm.kinit2 k))
  | .kalloc n => s.after (vm Vm.kalloc >>= setRaw n)
  | .kfree n => s.after (kfree k (s.raw n) >>= fun _ => setRaw n none)
  | .setupkvm n => if s.dirs n = none then s.after (vm (Vm.setupkvm k) >>= setDir n) else none
  | .allocuvm n oldsz newsz => do
    let d ← s.dirs n
    s.after (vm (Vm.allocuvm k d oldsz newsz))
  | .deallocuvm n oldsz newsz => do
    let d ← s.dirs n
    if oldsz ≤ KERNBASE then s.after (vm (Vm.deallocuvm k d oldsz newsz)) else none
  | .copyuvm n m sz => do
    let d ← s.dirs n
    if s.dirs m = none ∧ sz ≤ KERNBASE then s.after (vm (Vm.copyuvm k d sz) >>= setDir m) else none
  | .freevm n => s.after (freevm k (s.dirs n) >>= fun _ => setDir n none)
  | .userinit initcode => s.after (userinit k initcode)
  | .fork p => if s.Runs p then s.after (fork k p) else none
  | .exec p file argv => if s.Runs p then s.after (exec k p file argv) else none
  | .sbrk p n => if s.Runs p then s.after (growproc k p n) else none
  | .exit p => if s.Runs p then s.after (exit p) else none
  | .wait p => if s.Runs p then s.after (wait k p) else none
  | .pipe i => if (s.pipes i).isNone then s.after (pipealloc i) else none
  | .pipeclose i writable => do
    let pi ← s.pipes i
    if (if writable then pi.writeopen else pi.readopen) then s.after (pipeclose k i writable)
    else none
  | .write p v page => do
    let d ← (s.procs p).pgdir
    if s.Runs p ∧ v < userPages then
      (frameOf (pteAt s.mem d v)).map fun f => { s with mem := s.mem.setPage f page }
    else none

/-- No `exec` is of a file with a wrapping segment, unless it is loaded inside the image, or has
arguments that come to an address without a page table. -/
def Tame (s : Kern) : PageCall → Prop
  | .exec _ file argv => (file.Wrapping → file.Loadable s.mem.free.length) ∧
    ¬Exec.NullArgs file s.mem.free.length argv
  | _ => True

variable {t : Kern}

theorem after_wp {α : Type} {m : KernM α} (h : s.after m = some t)
    (hm : wp m s (fun _ t => Inv k t) (fun _ => True)) : Inv k t := by
  unfold after at h
  cases hrun : m s with
  | ok a u =>
    rw [hrun] at h
    rw [wp_of_eq hrun] at hm
    exact Option.some.inj h ▸ hm
  | stop e =>
    rw [hrun] at h
    simp at h

theorem inv_boot (k : Image) (page : ℕ → Page) : Inv k (boot k page) := by
  refine ⟨owns_start page .reserve (fun x => by cases x <;> rfl) ?_, fun _ => ?_⟩
  · intro y f hf
    cases y with
    | reserve g =>
      simp only [spot, boot, Option.ite_none_right_eq_some, Option.some.injEq] at hf
      obtain ⟨hpool, rfl⟩ := hf
      exact ⟨rfl, hpool⟩
    | raw n => simp [spot, boot] at hf
    | kstack p => simp [spot, boot] at hf
    | pipe i => simp [spot, boot] at hf
  · show 0 < KERNBASE
    decide

theorem spot_setReserve (s : Kern) (a : ℕ) (f : Option ℕ) :
    ({ s with reserve := Function.update s.reserve a f } : Kern).spot =
      Function.update s.spot (.reserve a) f := by
  funext y
  cases y with
  | raw n => rw [Function.update_of_ne (by simp)]; rfl
  | pipe i => rw [Function.update_of_ne (by simp)]; rfl
  | kstack p => rw [Function.update_of_ne (by simp)]; rfl
  | reserve b =>
    by_cases hb : b = a
    · rw [hb, Function.update_self]
      simp only [spot, Function.update_self]
    · rw [Function.update_of_ne (by simpa using hb)]
      simp only [spot, Function.update_of_ne hb]

theorem spot_released (s : Kern) (a n : ℕ) :
    ({ s with reserve := released s.reserve id a n } : Kern).spot =
      released s.spot .reserve a n := by
  induction n generalizing s a with
  | zero => rfl
  | succ n ih =>
    have hstep := ih { s with reserve := Function.update s.reserve a none } (a + 1)
    rw [spot_setReserve] at hstep
    exact hstep

theorem spot_setRaw (s : Kern) (n : ℕ) (f : Option ℕ) :
    ({ s with raw := Function.update s.raw n f } : Kern).spot =
      Function.update s.spot (.raw n) f := by
  funext y
  cases y with
  | reserve b => rw [Function.update_of_ne (by simp)]; rfl
  | pipe i => rw [Function.update_of_ne (by simp)]; rfl
  | kstack p => rw [Function.update_of_ne (by simp)]; rfl
  | raw m =>
    by_cases hm : m = n
    · rw [hm, Function.update_self]
      simp only [spot, Function.update_self]
    · rw [Function.update_of_ne (by simpa using hm)]
      simp only [spot, Function.update_of_ne hm]

theorem dir_setDir (s : Kern) (n : ℕ) (d : Option ℕ) :
    ({ s with dirs := Function.update s.dirs n d } : Kern).dir =
      Function.update s.dir (.raw n) d := by
  funext x
  cases x with
  | proc p => rw [Function.update_of_ne (by simp)]; rfl
  | image => rw [Function.update_of_ne (by simp)]; rfl
  | raw m =>
    by_cases hm : m = n
    · rw [hm, Function.update_self]
      simp only [dir, Function.update_self]
    · rw [Function.update_of_ne (by simpa using hm)]
      simp only [dir, Function.update_of_ne hm]

theorem kinit_spec (h : Inv k s) {a n : ℕ} {m : VmM Unit}
    (hm : m = (List.range' a n).forM fun f => Vm.kfree k f) :
    wp (kinit a n m) s (fun _ t => Inv k t) (fun _ => True) := by
  unfold kinit
  rw [wp_bind, wp_get]
  split_ifs with hres
  · have hinj : Function.Injective Spot.reserve := fun f g heq => Spot.reserve.inj heq
    have hspec := freerange_spec h.owns hinj hres
    rw [hm, wp_bind, wp_vm]
    refine wp_mono hspec ?_ (fun _ _ => trivial)
    rintro _ u ⟨howns, -⟩
    rw [wp_modify]
    refine ⟨?_, h.size⟩
    rw [spot_released]
    exact howns
  · exact (wp_stop _).mpr trivial

theorem Inv.setRaw (h : Inv k s) {m : Mem} {n : ℕ} {f : Option ℕ}
    (howns : Owns k m s.dir (Function.update s.spot (.raw n) f)) :
    wp (setRaw n f) { s with mem := m } (fun _ t => Inv k t) (fun _ => True) := by
  unfold Kern.setRaw
  rw [wp_modify]
  refine ⟨?_, h.size⟩
  rw [spot_setRaw]
  exact howns

theorem Inv.setDir (h : Inv k s) {m : Mem} {n : ℕ} {d : Option ℕ}
    (howns : Owns k m (Function.update s.dir (.raw n) d) s.spot) :
    wp (setDir n d) { s with mem := m } (fun _ t => Inv k t) (fun _ => True) := by
  unfold Kern.setDir
  rw [wp_modify]
  refine ⟨?_, h.size⟩
  rw [dir_setDir]
  exact howns

theorem Inv.step (h : Inv k s) {c : PageCall} (htame : s.Tame c) (hc : s.step k c = some t) :
    Inv k t := by
  cases c with
  | kinit1 => exact after_wp hc (kinit_spec h (kinit1_eq k))
  | kinit2 =>
    have hspec := kinit_spec h (kinit2_eq k)
    simp only [Kern.step] at hc
    exact after_wp hc hspec
  | kalloc n =>
    refine after_wp hc ?_
    rw [wp_bind, wp_vm]
    refine wp_mono (kalloc_spec h.owns (.raw n)) ?_ (fun _ he => he)
    rintro r m (⟨rfl, howns⟩ | ⟨f, rfl, howns⟩)
    · exact h.setRaw (howns.forget _)
    · exact h.setRaw howns
  | kfree n =>
    refine after_wp hc ?_
    rw [wp_bind]
    cases hn : s.raw n with
    | none => exact (wp_stop _).mpr trivial
    | some f =>
      rw [kfree, wp_vm]
      refine wp_mono (kfree_spec (y := Spot.raw n) h.owns hn) ?_ (fun _ he => he)
      intro _ m howns
      exact h.setRaw howns
  | setupkvm n =>
    simp only [Kern.step] at hc
    split_ifs at hc with hn
    refine after_wp hc ?_
    rw [wp_bind, wp_vm]
    refine wp_mono (setupkvm_spec (x := Holder.raw n) h.owns hn) ?_ (fun _ _ => trivial)
    rintro r m ⟨-, hnone, hsome⟩
    refine h.setDir ?_
    cases r with
    | none =>
      rw [Function.update_eq_self_iff.mpr (show none = s.dir (.raw n) from hn.symm)]
      exact (hnone rfl).1
    | some d => exact (hsome d rfl).1.owns
  | allocuvm n oldsz newsz =>
    obtain ⟨d, hn, hc⟩ := Option.bind_eq_some_iff.mp hc
    refine after_wp hc ?_
    rw [wp_vm]
    refine wp_mono (allocuvm_spec (x := Holder.raw n) h.owns hn) ?_ (fun _ _ => trivial)
    intro r m halloc
    exact h.setMem (halloc.userChange h.owns).owns
  | deallocuvm n oldsz newsz =>
    obtain ⟨d, hn, hc⟩ := Option.bind_eq_some_iff.mp hc
    split_ifs at hc with hle
    refine after_wp hc ?_
    rw [wp_vm]
    refine wp_mono (deallocuvm_spec (x := Holder.raw n) h.owns hn hle) ?_ (fun _ _ => trivial)
    rintro r m ⟨-, hcl⟩
    exact h.setMem hcl.owns
  | copyuvm n m sz =>
    obtain ⟨d, -, hc⟩ := Option.bind_eq_some_iff.mp hc
    split_ifs at hc with hm
    refine after_wp hc ?_
    rw [wp_bind, wp_vm]
    refine wp_mono (copyuvm_spec (x := Holder.raw m) h.owns hm.1 hm.2) ?_ (fun _ he => he)
    rintro r u ⟨-, hnone, hsome⟩
    refine h.setDir ?_
    cases r with
    | none =>
      rw [Function.update_eq_self_iff.mpr (show none = s.dir (.raw m) from hm.1.symm)]
      exact hnone rfl
    | some e => exact (hsome e rfl).1
  | freevm n =>
    refine after_wp hc ?_
    rw [wp_bind]
    cases hn : s.dirs n with
    | none => exact (wp_stop _).mpr trivial
    | some d =>
      rw [freevm, wp_vm]
      refine wp_mono (freevm_spec (x := Holder.raw n) h.owns hn) ?_ (fun _ _ => trivial)
      rintro _ m ⟨howns, -⟩
      exact h.setDir howns
  | userinit initcode => exact after_wp hc (userinit_spec h initcode)
  | fork p =>
    simp only [Kern.step] at hc
    split_ifs at hc with hp
    exact after_wp hc (fork_spec h)
  | exec p file argv =>
    simp only [Kern.step] at hc
    split_ifs at hc with hp
    exact after_wp hc (exec_keeps h hp htame.1)
  | sbrk p n =>
    simp only [Kern.step] at hc
    split_ifs at hc with hp
    exact after_wp hc (growproc_spec h hp n)
  | exit p =>
    simp only [Kern.step] at hc
    split_ifs at hc with hp
    exact after_wp hc (exit_spec h hp)
  | wait p =>
    simp only [Kern.step] at hc
    split_ifs at hc with hp
    exact after_wp hc (wait_spec h)
  | pipe i =>
    simp only [Kern.step] at hc
    split_ifs at hc with hi
    exact after_wp hc (pipealloc_spec h i)
  | pipeclose i writable =>
    obtain ⟨pi, -, hc⟩ := Option.bind_eq_some_iff.mp hc
    split_ifs at hc
    · exact after_wp hc (pipeclose_spec h i writable)
    · exact after_wp hc (pipeclose_spec h i writable)
  | write p v page =>
    obtain ⟨d, hd, hc⟩ := Option.bind_eq_some_iff.mp hc
    split_ifs at hc with hv
    obtain ⟨f, hf, rfl⟩ := Option.map_eq_some_iff.mp hc
    have hdir : s.dir (.proc p) = some d := (Proc.dir_eq (Or.inl hv.1)).trans hd
    exact h.setMem (h.owns.setPage (h.owns.not_spine_of_user hdir hv.2 hf) page)

/-- From boot on, after every run whose `exec`s are tame, every page is free or held once, and no
tame `exec` comes to a null page table entry. -/
theorem pages_have_one_owner (page : ℕ → Page) {calls : List PageCall}
    (htame : Run.Along (Kern.step k) Tame (boot k page) calls)
    (hrun : Run.exec (Kern.step k) (boot k page) calls = some s) :
    Exclusive s.mem.free (owned s.mem s.dir s.spot) ∧ ∀ p file argv, s.Runs p →
      s.Tame (.exec p file argv) → exec k p file argv s ≠ .stop "null pte" := by
  have hinv : Inv k s := Run.exec_invariant (fun _ _ _ hs hC hc => hs.step hC hc)
    (inv_boot k page) htame hrun
  exact ⟨hinv.owns.excl, fun p file argv hp hexec => exec_not_null hinv hp hexec.1 hexec.2⟩

end Kern
end Xv6
