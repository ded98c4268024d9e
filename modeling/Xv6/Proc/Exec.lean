import Xv6.Vm.Arguments

/-! `exec` with the transaction, the inode and the process, as in `exec.c`. The log is kept by the
number of calls of `begin_op` and `end_op`. -/
namespace Xv6
namespace Exec
open Prog Vm

/-- The fields of `struct proc` and of its trap frame that `exec` sets. -/
structure Proc where
  pgdir : ℕ
  sz : ℕ
  eip : ℕ
  esp : ℕ
  name : List UInt8

structure Files where
  lookup : List UInt8 → Option ℕ
  content : ℕ → ProgFile

structure State where
  mem : Mem
  log : List Vm.Store
  proc : Proc
  ref : ℕ → ℕ
  busy : ℕ → Bool
  begun : ℕ
  ended : ℕ

abbrev StateM := Prog (String × List Vm.Store) State

def panic {α : Type} (msg : String) : StateM α := fun s => .stop (msg, s.log)

def vm {α : Type} (m : ExecM α) : StateM α :=
  m.zoom (fun s => (s.mem, s.log)) fun t s => { s with mem := t.1, log := t.2 }

def beginOp : StateM Unit := Prog.modify fun s => { s with begun := s.begun + 1 }

def endOp : StateM Unit := Prog.modify fun s => { s with ended := s.ended + 1 }

def namei (fs : Files) (path : List UInt8) : StateM (Option ℕ) :=
  match fs.lookup path with
  | none => return none
  | some ip => do
    Prog.modify fun s => { s with ref := Function.update s.ref ip (s.ref ip + 1) }
    return some ip

/-- Lock the inode; a process that finds it locked goes to sleep. -/
def ilock (ip : ℕ) : StateM Unit := do
  let s ← Prog.get
  if s.ref ip < 1 then panic "ilock"
  else if s.busy ip then panic "sleep"
  else Prog.modify fun s => { s with busy := Function.update s.busy ip true }

/-- Unlock the inode and drop a reference to it. That `iput` frees an inode without links is left
out. -/
def iunlockput (ip : ℕ) : StateM Unit := do
  let s ← Prog.get
  if s.busy ip = false ∨ s.ref ip < 1 then panic "iunlock"
  else Prog.modify fun s =>
    { s with
      busy := Function.update s.busy ip false
      ref := Function.update s.ref ip (s.ref ip - 1) }

def lastPart (path : List UInt8) : List UInt8 :=
  path.foldl (fun last c => if c = 47 then [] else last ++ [c]) []

/-- The label `bad`: what is still held is given back. -/
def bad (k : Image) (pgdir ip : Option ℕ) : StateM Bool := do
  match pgdir with
  | none => pure ()
  | some d => vm (freevm k d).beside
  match ip with
  | none => pure ()
  | some i => do
    iunlockput i
    endOp
  return false

def commit (k : Image) (path : List UInt8) (pgdir sz eip esp : ℕ) : StateM Bool := do
  let s ← Prog.get
  Prog.modify fun s => { s with proc := ⟨pgdir, sz, eip, esp, (lastPart path).take 15⟩ }
  vm (freevm k s.proc.pgdir).beside
  return true

def load (k : Image) (path : List UInt8) (file : ProgFile) (hdr : ElfHeader) (entry ip : ℕ)
    (argv : List (List UInt8)) : StateM Bool := do
  match ← vm (setupkvm k).beside with
  | none => bad k none (some ip)
  | some pgdir => do
    match ← vm (loadSegments k file pgdir hdr.phnum hdr.phoff 0) with
    | none => bad k (some pgdir) (some ip)
    | some sz => do
      iunlockput ip
      endOp
      match ← vm (makeStack k pgdir sz argv).beside with
      | none => bad k (some pgdir) none
      | some (sz, sp) => commit k path pgdir sz entry sp

/-- The header of the file, whose inode is locked, is checked. -/
def readHeader (k : Image) (path : List UInt8) (file : ProgFile) (ip : ℕ)
    (argv : List (List UInt8)) : StateM Bool :=
  match file.readi 0 ElfHeader.size with
  | none => bad k none (some ip)
  | some l =>
    if l.length < ElfHeader.size then bad k none (some ip)
    else if (ElfHeader.ofBytes l).magic ≠ ELF_MAGIC then bad k none (some ip)
    else load k path file (.ofBytes l) (uintAt l 24) ip argv

/-- Replace the image of the process by that of the file at `path`. -/
def exec (k : Image) (fs : Files) (path : List UInt8) (argv : List (List UInt8)) : StateM Bool := do
  beginOp
  match ← namei fs path with
  | none => do
    endOp
    return false
  | some ip => do
    ilock ip
    readHeader k path (fs.content ip) ip argv

/-- The first page of the range that is not in `P` is one of `N`. -/
def Hits (P N : ℕ → Prop) (va len : ℕ) : Prop :=
  ∃ i < len, (∀ j < i, P (pageOf va j)) ∧ ¬P (pageOf va i) ∧ N (pageOf va i)

/-- Pushing the strings and then `ustack` comes to a page of `N`, where the pages of `P` can be
written; `argc` strings have been pushed already. -/
def MeetsNull (P N : ℕ → Prop) : List (List UInt8) → ℕ → ℕ → Prop
  | [], argc, sp => Hits P N ((sp + 2 ^ 32 - (3 + argc + 1) * 4) % 2 ^ 32) ((3 + argc + 1) * 4)
  | a :: as, argc, sp => argc < MAXARG ∧
    (Hits P N ((sp + 2 ^ 32 - (a.length + 1)) % 2 ^ 32 / 4 * 4) (a.length + 1) ∨
      (∀ i < a.length + 1, P (pageOf ((sp + 2 ^ 32 - (a.length + 1)) % 2 ^ 32 / 4 * 4) i)) ∧
        MeetsNull P N as (argc + 1) ((sp + 2 ^ 32 - (a.length + 1)) % 2 ^ 32 / 4 * 4))

def Writable (st : Shape) (u : ℕ) : Prop :=
  u + 2 < pagesOf st.sz ∨ (u + 1 = pagesOf st.sz ∧ st.hole = false)

/-- `exec` of a file with `n` free pages comes to an address of the arguments without a page
table. -/
def NullArgs (file : ProgFile) (n : ℕ) (argv : List (List UInt8)) : Prop :=
  file.Loadable n ∧ ∃ st, file.image n = some st ∧
    MeetsNull (Writable st) (fun u => ¬st.HasTable u) argv 0 st.sz

/-- The user memory of a directory is as before. -/
def SameMemory (d : ℕ) (s t : Mem) : Prop :=
  ∀ u < userPages, pteAt t d u = pteAt s d u ∧
    ∀ f, frameOf (pteAt s d u) = some f → t.page f = s.page f

/-- The inode is as before and one transaction has been opened and closed. -/
structure Released (s t : State) : Prop where
  ref : t.ref = s.ref
  busy : t.busy = s.busy
  begun : t.begun = s.begun + 1
  ended : t.ended = s.ended + 1

/-- A call that fails leaves the process alone, and one that succeeds has put each page of the old
directory on the free list once. -/
structure Kept (s : State) (r : Bool) (t : State) : Prop where
  proc : r = false → t.proc = s.proc
  memory : r = false → SameMemory s.proc.pgdir s.mem t.mem
  freed : r = true → ∀ f, f = s.proc.pgdir ∨ HeldBy s.mem s.proc.pgdir f → t.mem.free.count f = 1

/-- How `exec` should end. -/
structure Intact (s : State) (r : Bool) (t : State) : Prop extends Released s t, Kept s r t

section null

variable {ι κ : Type} {k : Image} {t : Mem} {D : ι → Option ℕ} {O : κ → Option ℕ} {x : ι}
  {d sp : ℕ} {c : ℕ → ℕ} {N P M : ℕ → Prop}

theorem pageOf_lt (va i : ℕ) : pageOf va i < 2 ^ 20 := by
  have hlt := Nat.mod_lt (va + i) (Nat.two_pow_pos 32)
  rw [pageOf, PGSIZE_eq]
  omega

theorem firstOut_iff (hP : ∀ u < 2 ^ 20, UserPte (c u) ↔ P u) (hN : ∀ u < 2 ^ 20, N u ↔ M u)
    (va len : ℕ) : FirstOut c N va len ↔ Hits P M va len := by
  refine exists_congr fun i => and_congr_right fun _ => ?_
  rw [hP _ (pageOf_lt va i), hN _ (pageOf_lt va i)]
  exact and_congr_left fun _ => forall₂_congr fun j _ => hP _ (pageOf_lt va j)

theorem pushStrings_null (h : Charted k D O x d c N t) (hP : ∀ u < 2 ^ 20, UserPte (c u) ↔ P u)
    (hN : ∀ u < 2 ^ 20, N u ↔ M u) {argv : List (List UInt8)} {argc : ℕ} {ps : List ℕ}
    (hps : ps.length = argc) :
    wp (pushStrings k d argv argc sp ps) t
      (fun r t' => Charted k D O x d c N t' ∧ (r = none → ¬MeetsNull P M argv argc sp) ∧
        ∀ sp' ps', r = some (sp', ps') → (MeetsNull P M argv argc sp ↔
          Hits P M ((sp' + 2 ^ 32 - (3 + ps'.length + 1) * 4) % 2 ^ 32) ((3 + ps'.length + 1) * 4)))
      (fun e => e = "null pte" ∧ MeetsNull P M argv argc sp) := by
  induction argv generalizing t argc sp ps with
  | nil =>
    rw [pushStrings, wp_pure]
    refine ⟨h, by simp, ?_⟩
    rintro _ _ ⟨⟩
    rw [MeetsNull, hps]
  | cons a as ih =>
    have hlen : (a ++ [0]).length = a.length + 1 := by
      rw [List.length_append, List.length_singleton]
    obtain ⟨va, hva⟩ : ∃ va, va = (sp + 2 ^ 32 - (a.length + 1)) % 2 ^ 32 / 4 * 4 := ⟨_, rfl⟩
    rw [pushStrings, MeetsNull, ← hva]
    by_cases hargc : argc ≥ MAXARG
    · rw [if_pos hargc, wp_pure]
      exact ⟨h, fun _ hc => absurd hc.1 hargc.not_gt, by simp⟩
    · have hlt : va < 2 ^ 32 := by omega
      have hspec := copyout_copies h hlt (a ++ [0])
      rw [firstOut_iff hP hN, hlen] at hspec
      rw [if_neg hargc]
      refine wp_seq (wp_mono hspec (fun _ _ hq => hq) fun e he => ⟨he.1, by omega, Or.inl he.2⟩) ?_
      rintro ok t1 ⟨hc, h1, hno⟩
      have hall : ok = true ↔ ∀ i < a.length + 1, P (pageOf va i) := by
        rw [hc.ok_iff, hlen]
        exact forall₂_congr fun i _ => hP _ (pageOf_lt va i)
      cases ok with
      | false =>
        rw [if_neg (by simp), wp_pure]
        refine ⟨h1, fun _ hm => ?_, by simp⟩
        exact hm.2.elim hno fun hm => by simpa using hall.mpr hm.1
      | true =>
        have hmeets : (argc < MAXARG ∧ (Hits P M va (a.length + 1) ∨
            (∀ i < a.length + 1, P (pageOf va i)) ∧ MeetsNull P M as (argc + 1) va)) ↔
            MeetsNull P M as (argc + 1) va := by
          rw [or_iff_right hno, and_iff_right (not_le.mp hargc), and_iff_right (hall.mp rfl)]
        rw [if_pos rfl, hmeets]
        exact ih h1 (by rw [List.length_append, List.length_singleton, hps])

theorem pushArgs_null (h : Charted k D O x d c N t) (hP : ∀ u < 2 ^ 20, UserPte (c u) ↔ P u)
    (hN : ∀ u < 2 ^ 20, N u ↔ M u) (argv : List (List UInt8)) (sz : ℕ) :
    wp (pushArgs k d sz argv) t (fun _ _ => ¬MeetsNull P M argv 0 sz)
      (fun e => e = "null pte" ∧ MeetsNull P M argv 0 sz) := by
  unfold pushArgs
  refine wp_seq (pushStrings_null h hP hN rfl) ?_
  rintro r t1 ⟨h1, hnone, hsome⟩
  cases r with
  | none =>
    dsimp only
    rw [wp_pure]
    exact hnone rfl
  | some q =>
    obtain ⟨sp, ps⟩ := q
    have hlt : (sp + 2 ^ 32 - (3 + ps.length + 1) * 4) % 2 ^ 32 < 2 ^ 32 :=
      Nat.mod_lt _ (Nat.two_pow_pos 32)
    have hlen : (ustack sp ps).length = (3 + ps.length + 1) * 4 := by
      rw [length_ustack]
      omega
    have hspec := copyout_copies h1 hlt (ustack sp ps)
    rw [firstOut_iff hP hN, hlen] at hspec
    rw [hsome sp ps rfl]
    dsimp only
    refine wp_seq (wp_mono hspec (fun _ _ hq => hq) fun _ he => he) ?_
    rintro ok t2 ⟨-, -, hno⟩
    rw [wp_pure]
    exact hno

end null

def State.release (s : State) (ip : ℕ) : State :=
  { s with
    busy := Function.update s.busy ip false
    ref := Function.update s.ref ip (s.ref ip - 1)
    ended := s.ended + 1 }

def State.setMem (s : State) (t : Mem) : State := { s with mem := t }

section spec

variable {ι κ : Type} [DecidableEq ι] [DecidableEq κ] {k : Image} {s : State} {m t : Mem}
  {D : ι → Option ℕ} {O : κ → Option ℕ} {x y : ι} {d ip : ℕ} {file : ProgFile}
  {argv : List (List UInt8)} {α : Type} {E : String × List Vm.Store → Prop}

theorem wp_vm {n : ExecM α} {Q : α → State → Prop} : wp (vm n) s Q E ↔
    wp n (s.mem, s.log) (fun a t => Q a { s with mem := t.1, log := t.2 }) E :=
  wp_zoom

omit [DecidableEq ι] [DecidableEq κ] in
theorem wp_panic {msg : String} {Q : α → State → Prop} :
    wp (panic msg : StateM α) s Q E ↔ E (msg, s.log) := wp_of_stop rfl

theorem wp_release {g : Unit → StateM α} {Q : α → State → Prop} (hbusy : s.busy ip = true)
    (href : 1 ≤ s.ref ip) (h : wp (g ()) (s.release ip) Q E) :
    wp (iunlockput ip >>= fun _ => endOp >>= g) s Q E := by
  rw [wp_bind, iunlockput, wp_bind, wp_get, if_neg (by rw [hbusy]; simp; omega), wp_modify, wp_bind,
    endOp, wp_modify]
  exact h

omit [DecidableEq ι] in
theorem sameMemory (h : SameUser D x m t) (hy : D y = some d) (hyx : y ≠ x) : SameMemory d m t := by
  have hU := userPages_eq
  exact fun u hu => ⟨h.ptes y d u hyx hy (by omega), fun f hf => h.pages y d u f hyx hy hu hf⟩

theorem bad_spec (h : Owns k s.mem D O) (hx : D x = some d) {o : Option ℕ}
    (ho : ∀ i, o = some i → s.busy i = true ∧ 1 ≤ s.ref i) :
    wp (bad k (some d) o) s (fun r t => r = false ∧ SameUser D x s.mem t.mem ∧
      t = (o.elim s s.release).setMem t.mem) (fun _ => False) := by
  unfold bad
  dsimp only
  rw [wp_bind, wp_vm, wp_beside]
  refine wp_post (freevm_apart h hx) ?_
  rintro _ t ⟨hsame, -⟩
  cases o with
  | none =>
    dsimp only
    rw [wp_pure]
    exact ⟨rfl, hsame, rfl⟩
  | some i =>
    refine wp_release (ho i rfl).1 (ho i rfl).2 ?_
    rw [wp_pure]
    exact ⟨rfl, hsame, rfl⟩

theorem commit_spec {old : ℕ} (h : Owns k s.mem D O) (hy : D y = some old)
    (hold : s.proc.pgdir = old) (path : List UInt8) (pgdir sz eip esp : ℕ) :
    wp (commit k path pgdir sz eip esp) s (fun r t => r = true ∧
      (∀ f, f = old ∨ HeldBy s.mem old f → t.mem.free.count f = 1) ∧
      t = { s.setMem t.mem with proc := t.proc }) (fun _ => False) := by
  subst hold
  unfold commit
  rw [wp_bind, wp_get, wp_bind, wp_modify, wp_bind, wp_vm, wp_beside]
  refine wp_post (freevm_apart h hy) ?_
  rintro _ t ⟨-, howns, hfree⟩
  rw [wp_pure]
  refine ⟨rfl, fun f hf => ?_, rfl⟩
  exact List.count_eq_one_of_mem howns.excl.nodup ((hfree f).mpr (Or.inr hf))

/-- The arguments of a program come to an address without a page table, where `n` pages are free
for its image. -/
def NullImage (file : ProgFile) (hdr : ElfHeader) (n : ℕ) (argv : List (List UInt8)) : Prop :=
  Scans n file hdr.phnum hdr.phoff ⟨0, false⟩ ∧
    ∃ st, (scan n file hdr.phnum hdr.phoff ⟨0, false⟩).bind (Shape.stack n) = some st ∧
      MeetsNull (Writable st) (fun u => ¬st.HasTable u) argv 0 st.sz

theorem makeStack_null {n : ℕ} {st : Shape} (h : Shaped k D O x d n st m) :
    wp (makeStack k d st.sz argv) m
      (fun _ t => Inside k D O x d m t ∧ ¬∃ st', st.stack n = some st' ∧
        MeetsNull (Writable st') (fun u => ¬st'.HasTable u) argv 0 st'.sz)
      (fun e => e = "null pte" ∧ ∃ st', st.stack n = some st' ∧
        MeetsNull (Writable st') (fun u => ¬st'.HasTable u) argv 0 st'.sz) := by
  have hnull : wp (makeStack k d st.sz argv) m
      (fun _ _ => ¬∃ st', st.stack n = some st' ∧
        MeetsNull (Writable st') (fun u => ¬st'.HasTable u) argv 0 st'.sz)
      (fun e => e = "null pte" ∧ ∃ st', st.stack n = some st' ∧
        MeetsNull (Writable st') (fun u => ¬st'.HasTable u) argv 0 st'.sz) := by
    refine h.makeStack (fun hnone _ _ => ?_) fun st' t c N w hst' hsz hchart hN hch => ?_
    · rintro ⟨st', hst', -⟩
      rw [hnone] at hst'
      cases hst'
    · have hpages : pagesOf st'.sz = w + 1 := by
        rw [hsz, pagesOf, PGSIZE_eq]
        omega
      have hP : ∀ u < 2 ^ 20, UserPte (c u) ↔ Writable st' u := by
        intro u hu
        rw [hchart.user u hu, Writable, hpages, Nat.add_right_cancel_iff]
        exact or_congr (by omega) Iff.rfl
      have hone : (∃ st₁, st.stack n = some st₁ ∧
          MeetsNull (Writable st₁) (fun u => ¬st₁.HasTable u) argv 0 st₁.sz) ↔
          MeetsNull (Writable st') (fun u => ¬st'.HasTable u) argv 0 st'.sz := by
        rw [hst']
        simp
      rw [hone]
      exact pushArgs_null hch hP hN argv st'.sz
  refine wp_post (wp_and hnull h.held.makeStack) ?_
  exact fun _ t ht => ⟨ht.2, ht.1⟩

theorem load_spec {hdr : ElfHeader} (h : Owns k s.mem D O) (hx : D x = none)
    (hy : D y = some s.proc.pgdir) (hlog : s.log = []) (hbusy : s.busy ip = true)
    (href : 1 ≤ s.ref ip) (hfile : PlacedFrom file hdr.phnum hdr.phoff) (path : List UInt8)
    (entry : ℕ) :
    wp (load k path file hdr entry ip argv) s
      (fun r t => ¬(65 ≤ s.mem.free.length ∧ NullImage file hdr (s.mem.free.length - 65) argv) ∧
        (∃ t' l pr, t = { (s.release ip).setMem t' with log := l, proc := pr }) ∧ Kept s r t)
      (fun e => e.1 = "null pte" ↔
        65 ≤ s.mem.free.length ∧ NullImage file hdr (s.mem.free.length - 65) argv) := by
  have hyx : y ≠ x := by
    rintro rfl
    rw [hx] at hy
    cases hy
  unfold load
  rw [wp_bind, wp_vm, wp_beside]
  refine wp_mono (setupkvm_spec (x := x) h hx) ?_ (fun _ hf => hf.elim)
  rintro r t ⟨hun, hnone, hsome⟩
  have hdir : ∀ d, Function.update D x (some d) y = some s.proc.pgdir :=
    fun d => by rw [Function.update_of_ne hyx, hy]
  cases r with
  | none =>
    have hmem := sameMemory (hun.sameUser (x := x) h 0) (hdir 0) hyx
    refine wp_release hbusy href ?_
    rw [wp_pure]
    exact ⟨fun hc => absurd hc.1 (hnone rfl).2.2.not_ge, ⟨t, s.log, s.proc, rfl⟩, fun _ => rfl,
      fun _ => hmem, fun hc => by cases hc⟩
  | some d =>
    obtain ⟨hset, hlen⟩ := hsome d rfl
    have hlen' : s.mem.free.length - 65 = t.free.length := by omega
    have h65 : 65 ≤ s.mem.free.length := by omega
    rw [and_iff_right h65, hlen', hlog]
    have hself : Function.update D x (some d) x = some d := Function.update_self ..
    have hstart := hun.sameUser (x := x) h d
    dsimp only
    rw [wp_bind, wp_vm]
    refine wp_mono (wp_and (loadSegments_spec hset.shaped) hset.shaped.held.loadSegments) ?_ ?_
    · rintro r ⟨t1, log⟩ ⟨⟨hscan, hbuilt, -, hscanned⟩ | ⟨-, hwraps, -⟩, hin⟩
      · obtain ⟨l, hl, hgood⟩ := hbuilt.good
        have hinside : Inside k (Function.update D x (some d)) O x d t t1 := by
          refine hin.resolve_right ?_
          rintro ⟨e, he, hbad⟩
          rw [hl, List.append_nil] at he
          exact hbad (hgood e he)
        have hsame := hstart.trans hinside.same
        rw [hscanned.size]
        unfold NullImage
        cases hst : scan t.free.length file hdr.phnum hdr.phoff ⟨0, false⟩ with
        | none =>
          rw [Option.map_none]
          dsimp only
          refine wp_mono (bad_spec hbuilt.owns hself (o := some ip) ?_) ?_ (fun _ hf => hf.elim)
          · rintro _ ⟨⟩
            exact ⟨hbusy, href⟩
          · rintro r t2 ⟨rfl, hsame2, ht2⟩
            refine ⟨by simp, ⟨t2.mem, log, s.proc, ht2⟩, fun _ => by rw [ht2]; rfl, fun _ => ?_,
              fun hc => by cases hc⟩
            exact sameMemory (hsame.trans hsame2) (hdir d) hyx
        | some st =>
          have hshaped := hscanned.shaped st hst
          rw [Option.map_some, Option.bind_some]
          dsimp only
          refine wp_release hbusy href ?_
          rw [wp_bind, wp_vm, wp_beside]
          refine wp_mono (makeStack_null hshaped) ?_ ?_
          · rintro r t2 ⟨hinside2, hno⟩
            have hsame2 := hsame.trans hinside2.same
            cases r with
            | none =>
              dsimp only
              refine wp_mono (bad_spec hinside2.held.owns hself (o := none) (by simp)) ?_
                (fun _ hf => hf.elim)
              rintro r t3 ⟨rfl, hsame3, ht3⟩
              refine ⟨fun hc => hno hc.2, ⟨t3.mem, log, s.proc, ht3⟩, fun _ => by rw [ht3]; rfl,
                fun _ => ?_, fun hc => by cases hc⟩
              exact sameMemory (hsame2.trans hsame3) (hdir d) hyx
            | some p =>
              obtain ⟨sz, sp⟩ := p
              dsimp only
              refine wp_mono (commit_spec (O := O) ?_ (hdir d) ?_ path d sz entry sp) ?_ ?_
              · exact hinside2.held.owns
              · rfl
              · rintro r t3 ⟨rfl, hfreed, ht3⟩
                refine ⟨fun hc => hno hc.2, ⟨t3.mem, log, t3.proc, ht3⟩, by simp, by simp,
                  fun _ f hf => hfreed f ?_⟩
                exact hf.imp_right (hsame2.heldBy (hdir d) hyx)
              · exact fun _ hf => hf.elim
          · rintro e ⟨he, hm⟩
            exact iff_of_true he ⟨hscan, hm⟩
      · exact absurd hwraps hfile.not_wraps
    · rintro e ⟨hno, hmsg | ⟨hwraps, -⟩⟩
      · refine iff_of_false (fun hc => ?_) fun hc => hno hc.1
        rw [hc] at hmsg
        revert hmsg
        decide
      · exact absurd hwraps hfile.not_wraps

theorem makeImage_null {n : ℕ} {hdr : ElfHeader} (h : Shaped k D O x d n ⟨0, false⟩ m)
    (hscan : Scans n file hdr.phnum hdr.phoff ⟨0, false⟩) :
    wp (makeImage k file hdr d argv) (m, []) (fun _ _ => True)
      (fun _ => NullImage file hdr n argv) := by
  unfold makeImage
  refine wp_seq (wp_mono (loadSegments_spec h) (fun _ _ hq => hq) fun _ he => absurd hscan he.1) ?_
  rintro r ⟨t, log⟩ (⟨-, -, -, hscanned⟩ | ⟨hno, -⟩)
  · rw [hscanned.size]
    unfold NullImage
    cases hst : scan n file hdr.phnum hdr.phoff ⟨0, false⟩ with
    | none =>
      dsimp only [Option.map_none]
      rw [wp_pure]
      trivial
    | some st =>
      dsimp only [Option.map_some, Option.bind_some]
      rw [wp_beside]
      exact wp_mono (makeStack_null (hscanned.shaped st hst)) (fun _ _ _ => trivial)
        fun _ he => ⟨hscan, he.2⟩
  · exact absurd hscan hno

theorem nullArgs_iff {n : ℕ} {hdr : ElfHeader} (helf : file.elf = some hdr) :
    NullArgs file n argv ↔ 65 ≤ n ∧ NullImage file hdr (n - 65) argv := by
  rw [NullArgs, NullImage, ProgFile.Loadable, ProgFile.image, helf]
  dsimp only
  by_cases h : n < 65
  · rw [if_pos h]
    exact iff_of_false (by simp) fun hc => absurd hc.1 h.not_ge
  · rw [if_neg h, or_iff_right h, and_iff_right (not_lt.mp h)]

/-- Where `exec` of a file that does not stray stops at a null page table entry, the arguments have
come to one. -/
theorem nullArgs_of_stop {old : ℕ} {e : String × List Vm.Store} (h : Owns k m D O)
    (hx : D x = none) (hy : D y = some old) (hfile : file.Wrapping → file.Loadable m.free.length)
    (hstop : Vm.exec k old file argv (m, []) = .stop e) (he : e.1 = "null pte") :
    NullArgs file m.free.length argv := by
  have hload : file.Loadable m.free.length := by
    rcases (wp_of_stop hstop).mp (exec_spec h hx hy file argv) with hl | ⟨-, hw | hw⟩
    · exact hl.1
    · rw [he] at hw
      exact absurd hw (by decide)
    · exact hfile hw.1
  suffices hnull : wp (Vm.exec k old file argv) (m, []) (fun _ _ => True)
      (fun _ => NullArgs file m.free.length argv) from (wp_of_stop hstop).mp hnull
  rw [exec_eq]
  cases helf : file.elf with
  | none =>
    dsimp only
    rw [wp_pure]
    trivial
  | some hdr =>
    rw [nullArgs_iff helf]
    rw [ProgFile.Loadable, helf] at hload
    dsimp only at hload ⊢
    rw [wp_bind, wp_beside]
    refine wp_mono (setupkvm_spec (x := x) h hx) ?_ (fun _ hf => hf.elim)
    rintro r t ⟨-, -, hsome⟩
    cases r with
    | none =>
      dsimp only
      rw [wp_pure]
      trivial
    | some d =>
      obtain ⟨hset, hlen⟩ := hsome d rfl
      have hlen' : m.free.length - 65 = t.free.length := by omega
      rw [hlen', or_iff_right (by omega)] at hload
      rw [hlen', and_iff_right (by omega)]
      have hyx : y ≠ x := by
        rintro rfl
        rw [hx] at hy
        cases hy
      refine wp_seq (wp_and (makeImage_null hset.shaped hload) (makeImage_spec hset.shaped)) ?_
      rintro r ⟨t1, log⟩ ⟨-, ⟨-, -, howns, -⟩ | ⟨hno, -⟩⟩
      · cases r with
        | none =>
          dsimp only
          rw [wp_bind, wp_beside]
          exact wp_mono (freevm_spec howns (Function.update_self ..))
            (fun _ _ _ => (wp_pure ..).mpr trivial)
            fun _ hf => hf.elim
        | some p =>
          have hy' : Function.update D x (some d) y = some old := by
            rw [Function.update_of_ne hyx, hy]
          dsimp only
          rw [wp_bind, wp_beside]
          exact wp_mono (freevm_spec howns hy') (fun _ _ _ => (wp_pure ..).mpr trivial)
            fun _ hf => hf.elim
      · exact absurd hload hno

def State.opened (s : State) (ip : ℕ) : State :=
  { s with
    ref := Function.update s.ref ip (s.ref ip + 1)
    busy := Function.update s.busy ip true
    begun := s.begun + 1 }

theorem State.released_opened (hbusy : s.busy ip = false) (t : Mem) (l : List Vm.Store) (p : Proc) :
    Released s { ((s.opened ip).release ip).setMem t with log := l, proc := p } := by
  refine ⟨?_, ?_, rfl, rfl⟩
  · simp [State.release, State.setMem, State.opened]
  · simp [State.release, State.setMem, State.opened, ← hbusy]

theorem readHeader_spec (h : Owns k s.mem D O) (hx : D x = none) (hy : D y = some s.proc.pgdir)
    (hlog : s.log = []) (hbusy : s.busy ip = false) (hfile : file.Placed) (path : List UInt8)
    (argv : List (List UInt8)) :
    wp (readHeader k path file ip argv) (s.opened ip)
      (fun r t => Intact s r t ∧ ¬NullArgs file s.mem.free.length argv)
      (fun e => e.1 = "null pte" ↔ NullArgs file s.mem.free.length argv) := by
  have hself : (s.opened ip).busy ip = true := Function.update_self ..
  have href : 1 ≤ (s.opened ip).ref ip := by simp [State.opened]
  have hbad : file.elf = none → wp (bad k none (some ip)) (s.opened ip)
      (fun r t => Intact s r t ∧ ¬NullArgs file s.mem.free.length argv)
      (fun e => e.1 = "null pte" ↔ NullArgs file s.mem.free.length argv) := by
    intro helf
    refine wp_release hself href ?_
    rw [wp_pure]
    refine ⟨⟨State.released_opened hbusy s.mem s.log s.proc, fun _ => rfl,
      fun _ _ _ => ⟨rfl, fun _ _ => rfl⟩, by simp⟩, ?_⟩
    rintro ⟨-, st, hst, -⟩
    simp [ProgFile.image, helf] at hst
  unfold ProgFile.elf at hbad
  unfold readHeader
  cases hread : file.readi 0 ElfHeader.size with
  | none => exact hbad (by rw [hread])
  | some l =>
    rw [hread] at hbad
    dsimp only at hbad ⊢
    by_cases hlen : l.length < ElfHeader.size
    · rw [if_pos hlen] at hbad ⊢
      exact hbad rfl
    · rw [if_neg hlen] at hbad ⊢
      by_cases hmagic : (ElfHeader.ofBytes l).magic ≠ ELF_MAGIC
      · rw [if_pos hmagic] at hbad ⊢
        exact hbad rfl
      · have helf : file.elf = some (.ofBytes l) := by
          rw [ProgFile.elf, hread]
          dsimp only
          rw [if_neg hlen, if_neg hmagic]
        rw [if_neg hmagic]
        rw [ProgFile.Placed, helf] at hfile
        refine wp_mono (load_spec (s := s.opened ip) h hx hy hlog hself href hfile path _) ?_ ?_
        · rintro r t ⟨hno, ⟨t', log, p, rfl⟩, hkept⟩
          refine ⟨⟨State.released_opened hbusy t' log p, hkept.proc, hkept.memory, hkept.freed⟩, ?_⟩
          rw [nullArgs_iff helf]
          exact hno
        · rintro e he
          rw [nullArgs_iff helf]
          exact he

/-- `exec` stops at a null page table entry if the arguments come to one, and keeps its promises
if it returns. -/
theorem exec_outcome {fs : Files} {path : List UInt8} (h : Owns k s.mem D O) (hx : D x = none)
    (hy : D y = some s.proc.pgdir) (hlog : s.log = [])
    (hfile : ∀ i, fs.lookup path = some i → (fs.content i).Placed) (argv : List (List UInt8)) :
    wp (exec k fs path argv) s
      (fun r t => Intact s r t ∧ ∀ i, fs.lookup path = some i → s.busy i = false →
        ¬NullArgs (fs.content i) s.mem.free.length argv)
      (fun e => e.1 = "null pte" ↔ ∃ i, fs.lookup path = some i ∧ s.busy i = false ∧
        NullArgs (fs.content i) s.mem.free.length argv) := by
  unfold exec namei
  rw [wp_bind, beginOp, wp_modify]
  cases hlook : fs.lookup path with
  | none =>
    dsimp only
    rw [wp_bind, wp_pure]
    dsimp only
    rw [wp_bind, endOp, wp_modify, wp_pure]
    exact ⟨⟨⟨rfl, rfl, rfl, rfl⟩, fun _ => rfl, fun _ _ _ => ⟨rfl, fun _ _ => rfl⟩, by simp⟩,
      by simp⟩
  | some ip =>
    have hone : (∃ i, some ip = some i ∧ s.busy i = false ∧
        NullArgs (fs.content i) s.mem.free.length argv) ↔
        s.busy ip = false ∧ NullArgs (fs.content ip) s.mem.free.length argv := by simp
    have hall : (∀ i, some ip = some i → s.busy i = false →
        ¬NullArgs (fs.content i) s.mem.free.length argv) ↔
        (s.busy ip = false → ¬NullArgs (fs.content ip) s.mem.free.length argv) := by simp
    rw [hone, hall]
    dsimp only
    rw [wp_bind, wp_bind, wp_modify, wp_pure]
    dsimp only
    rw [wp_bind, ilock, wp_bind, wp_get, if_neg (by simp)]
    cases hbusy : s.busy ip with
    | true =>
      rw [if_pos rfl]
      rw [wp_panic]
      simp
    | false =>
      have hopened := readHeader_spec h hx hy hlog hbusy (hfile ip hlook) path argv
      rw [if_neg Bool.false_ne_true, wp_modify]
      rw [State.opened] at hopened
      simpa using hopened

theorem exec_not_intact {fs : Files} {path : List UInt8} {i : ℕ} (h : Owns k s.mem D O)
    (hx : D x = none) (hy : D y = some s.proc.pgdir) (hlog : s.log = [])
    (hfile : ∀ i, fs.lookup path = some i → (fs.content i).Placed) (hi : fs.lookup path = some i)
    (hbusy : s.busy i = false) (hnull : NullArgs (fs.content i) s.mem.free.length argv) :
    ¬wp (exec k fs path argv) s (Intact s) (fun e => e.1 ≠ "null pte") := by
  intro hall
  have hspec := exec_outcome h hx hy hlog hfile argv
  cases hrun : exec k fs path argv s with
  | ok r t =>
    rw [wp_of_eq hrun] at hspec
    exact hspec.2 i hi hbusy hnull
  | stop e =>
    rw [wp_of_stop hrun] at hspec hall
    exact hall (hspec.mpr ⟨i, hi, hbusy, hnull⟩)

/-- A failed `exec` leaves its caller alone and a successful one frees the old image once, exactly
if the arguments do not come to an address without a page table. -/
theorem exec_intact_iff {fs : Files} {path : List UInt8} (h : Owns k s.mem D O) (hx : D x = none)
    (hy : D y = some s.proc.pgdir) (hlog : s.log = [])
    (hfile : ∀ i, fs.lookup path = some i → (fs.content i).Placed) (argv : List (List UInt8)) :
    wp (exec k fs path argv) s (Intact s) (fun e => e.1 ≠ "null pte") ↔
      ∀ i, fs.lookup path = some i → s.busy i = false →
        ¬NullArgs (fs.content i) s.mem.free.length argv := by
  constructor
  · intro hall i hi hbusy hnull
    exact exec_not_intact h hx hy hlog hfile hi hbusy hnull hall
  · intro hno
    refine wp_mono (exec_outcome h hx hy hlog hfile argv) (fun _ _ hq => hq.1) fun e he hnull => ?_
    obtain ⟨i, hi, hbusy, hm⟩ := he.mp hnull
    exact hno i hi hbusy hm

end spec

def first (m : Mem) (d sz : ℕ) : State :=
  ⟨m, [], ⟨d, sz, 0, 0, []⟩, fun _ => 0, fun _ => false, 0, 0⟩

theorem bss_not_nullArgs {n : ℕ} (hn : 69 ≤ n) : ¬NullArgs (bss PGSIZE) n [[104, 105]] := by
  rintro ⟨-, st, himage, hmeets⟩
  rw [bss_page_image hn] at himage
  cases himage
  have hpage : ∀ va i, va + i < 2 ^ 32 → (va + i) / PGSIZE = 2 →
      Writable ⟨3 * PGSIZE, false⟩ (pageOf va i) := by
    intro va i hlt h2
    rw [pageOf, Nat.mod_eq_of_lt hlt, h2]
    exact Or.inr ⟨rfl, rfl⟩
  have hhits : ∀ (M : ℕ → Prop) va n, 2 * PGSIZE ≤ va → va + n ≤ 3 * PGSIZE →
      ¬Hits (Writable ⟨3 * PGSIZE, false⟩) M va n := by
    rintro M va n hlo hhi ⟨i, hi, -, hno, -⟩
    rw [PGSIZE_eq] at hlo hhi
    exact hno (hpage va i (by omega) (by rw [PGSIZE_eq]; omega))
  rcases hmeets with ⟨-, hhit | ⟨-, hhit⟩⟩
  · exact hhits _ _ _ (by decide) (by decide) hhit
  · exact hhits _ _ _ (by decide) (by decide) hhit

theorem exec_intact_hi : ∃ s d,
    Run.Reaches (Spaces.step Spaces.sampleImage) (Spaces.start Spaces.sampleImage fun _ => fill 0)
        s ∧
      s.dir (some 0) = some d ∧
      wp (exec Spaces.sampleImage ⟨fun _ => some 1, fun _ => bss PGSIZE⟩ [104] [[104, 105]])
        (first s.mem d PGSIZE) (Intact (first s.mem d PGSIZE)) (fun e => e.1 ≠ "null pte") := by
  obtain ⟨s, kpgdir, d, hreach, -, hd, hfree, hdense⟩ :=
    Spaces.exists_first (fun _ => fill 0) (p := 1) (by decide) (by decide)
  have hlen := hdense.free
  refine ⟨s, d, hreach, hd, (exec_intact_iff (s := first s.mem d PGSIZE) hdense.owns
    (hfree 1 (by norm_num)) hd rfl (fun _ _ => bss_placed (by decide)) _).mpr fun _ _ _ => ?_⟩
  exact bss_not_nullArgs (show 69 ≤ s.mem.free.length by rw [need] at hlen; omega)

/-- An argument of 64 MiB, from a process that holds it, takes the stack pointer below 0, to an
address without a page table. -/
theorem exec_intact_long : ∃ s d,
    Run.Reaches (Spaces.step Spaces.sampleImage) (Spaces.start Spaces.sampleImage fun _ => fill 0)
        s ∧
      s.dir (some 0) = some d ∧ (∀ u < 2 ^ 14 + 2, pteAt s.mem d u % 2 = 1) ∧
      ¬wp (exec Spaces.sampleImage ⟨fun _ => some 1, fun _ => bss PGSIZE⟩ [104]
          [List.replicate (2 ^ 26) 97])
        (first s.mem d ((2 ^ 14 + 2) * PGSIZE)) (Intact (first s.mem d ((2 ^ 14 + 2) * PGSIZE)))
        (fun e => e.1 ≠ "null pte") := by
  obtain ⟨s, kpgdir, d, hreach, -, hd, hfree, hdense⟩ :=
    Spaces.exists_first (fun _ => fill 0) (p := 2 ^ 14 + 2) (by decide) (by decide)
  have hlen := hdense.free
  refine ⟨s, d, hreach, hd, fun u hu => ?_, exec_not_intact (i := 1)
    (s := first s.mem d ((2 ^ 14 + 2) * PGSIZE)) hdense.owns (hfree 1 (by norm_num)) hd rfl
    (fun _ _ => bss_placed (by decide)) rfl rfl
    ⟨bss_loadable (by decide), ⟨3 * PGSIZE, false⟩, ?_, by decide, Or.inl ?_⟩⟩
  · obtain ⟨f, hf⟩ := hdense.mapped u hu
    rw [hf, entry_odd]
  · exact bss_page_image (show 69 ≤ s.mem.free.length by rw [need] at hlen; omega)
  · have hpage : pageOf ((3 * PGSIZE + 2 ^ 32 - (2 ^ 26 + 1)) % 2 ^ 32 / 4 * 4) 0 = 0xFC002 := by
      decide
    rw [List.length_replicate]
    refine ⟨0, by omega, by simp, ?_, ?_⟩
    · rw [hpage, Writable]
      decide
    · rw [hpage]
      beta_reduce
      rw [Shape.HasTable, if_neg (by decide), kernelTables, Finset.mem_union, Finset.mem_Ico,
        Finset.mem_Ico]
      decide

end Exec
end Xv6
