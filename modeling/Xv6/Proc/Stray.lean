import Xv6.Proc.Pages

/-! A program whose second segment wraps around writes into the page table of the process that
runs it, and maps the page of a pipe. -/
namespace Xv6
open Prog Vm

/-- A segment of one byte, then one of four bytes at the kernel's address of the page `t`, which
are a page-table entry for the page `f`; the third program header is missing. -/
def strayFile (t f : ℕ) : ProgFile :=
  ofWords [ELF_MAGIC, 0, 0, 0, 0, 0, 0, 52, 0, 0, 0, 3, 0,
    ELF_PROG_LOAD, 0, 0, 0, 0, 1, 0, 0,
    ELF_PROG_LOAD, 116, (userPages + t) * PGSIZE, 0, 4, 2 ^ 32 - (userPages + t) * PGSIZE, 0, 0,
    entry f (PTE_W ||| PTE_U)] (by norm_num)

section file

variable {t f : ℕ}

theorem strayFile_elf : (strayFile t f).elf = some ⟨ELF_MAGIC, 52, 3⟩ :=
  elf_ofWords (by norm_num) (by norm_num) rfl

theorem strayFile_first : (strayFile t f).header 52 = some ⟨ELF_PROG_LOAD, 0, 0, 0, 1⟩ :=
  header_ofWords (i := 13) (by norm_num) (by norm_num)

theorem strayFile_second (ht : t < 0xE000) : (strayFile t f).header 84 =
    some ⟨ELF_PROG_LOAD, 116, (userPages + t) * PGSIZE, 4, 2 ^ 32 - (userPages + t) * PGSIZE⟩ := by
  have hhdr : (strayFile t f).header 84 = some ⟨ELF_PROG_LOAD, 116,
      (userPages + t) * PGSIZE % 2 ^ 32, 4, (2 ^ 32 - (userPages + t) * PGSIZE) % 2 ^ 32⟩ :=
    header_ofWords (i := 21) (by norm_num) (by norm_num)
  have h1 : (userPages + t) * PGSIZE % 2 ^ 32 = (userPages + t) * PGSIZE := by
    rw [userPages_eq, PGSIZE_eq]
    omega
  have h2 : (2 ^ 32 - (userPages + t) * PGSIZE) % 2 ^ 32 = 2 ^ 32 - (userPages + t) * PGSIZE := by
    rw [userPages_eq, PGSIZE_eq]
    omega
  rw [hhdr, h1, h2]

theorem strayFile_third : (strayFile t f).header 116 = none := by
  have hlen : (strayFile t f).bytes.length = 120 := length_words _
  have hread : (strayFile t f).readi 116 ProgHeader.size =
      some (((strayFile t f).bytes.drop 116).take ProgHeader.size) := by
    rw [ProgFile.readi, if_neg (by rw [hlen, ProgHeader.size]; omega)]
  rw [ProgFile.header, hread]
  dsimp only
  rw [if_pos]
  rw [List.length_take, List.length_drop, hlen]
  decide

theorem strayFile_bytes : (strayFile t f).readi 116 4 =
    some (Bytes.natBytes 4 (entry f (PTE_W ||| PTE_U))) := by
  have hread : (strayFile t f).readi 116 4 = some (words [entry f (PTE_W ||| PTE_U)]) :=
    readi_ofWords (i := 29) (n := 1) (by norm_num) (by norm_num)
  have hwords : words [entry f (PTE_W ||| PTE_U)] =
      Bytes.natBytes 4 (entry f (PTE_W ||| PTE_U)) := List.append_nil _
  rw [hread, hwords]

end file

section exec

variable {ι κ : Type} [DecidableEq ι] [DecidableEq κ] {k : Image} {s t : Mem}
  {D : ι → Option ℕ} {O : κ → Option ℕ} {x y : ι} {z : κ} {d e f g n : ℕ} {log : List Vm.Store}

structure Target (k : Image) (D : ι → Option ℕ) (O : κ → Option ℕ) (x y : ι) (z : κ)
    (d e g f : ℕ) (t : Mem) : Prop where
  owns : Owns k t D O
  image : D x = some d
  kernel : ∀ u, userPages ≤ u → u < 2 ^ 20 → pteAt t d u = kernelPte k u
  dir : D y = some e
  table : tableAt t e 0 = some g
  page : O z = some f

theorem SetUp.target (h : SetUp k D O x d t) (hfree : 2 ≤ t.free.length) (hxy : y ≠ x)
    (hy : D y = some e) (ht : tableAt t e 0 = some g) (hz : O z = some f) :
    wp (allocuvm k d 0 1) t
      (fun r t' => r = 1 ∧ Target k (Function.update D x (some d)) O x y z d e g f t')
      (fun _ => False) := by
  have hself : Function.update D x (some d) x = some d := Function.update_self ..
  have hy' : Function.update D x (some d) y = some e := by
    rw [Function.update_of_ne hxy, hy]
  have hsome : Shape.alloc t.free.length ⟨0, false⟩ 1 = some ⟨1, false⟩ := by
    have hfit : fit t.free.length 1 = .full := if_pos hfree
    rw [Shape.alloc, if_neg (by decide), if_neg (by simp), if_neg (by decide), if_neg (by simp),
      show pagesOf 1 = 1 by decide, hfit]
  obtain ⟨r, t', hrun, hr⟩ := wp_total (h.shaped.allocuvm 1)
  rw [hsome] at hr
  have halloc := (wp_of_eq hrun).mp (allocuvm_spec h.owns hself)
  refine (wp_of_eq hrun).mpr ⟨hr.1, hr.2.2.dense.owns, hself, hr.2.2.dense.kernel, hy', ?_, hz⟩
  have hne := hr.2.1
  cases halloc with
  | refused hge => exact absurd rfl hne
  | smaller _ hlt => omega
  | failed _ _ _ _ _ _ => exact absurd rfl hne
  | grown _ _ hfill _ =>
    have hkept := hfill.kept (.table y 0) g
    rw [spine_table hy' (by decide), spine_table hy' (by decide)] at hkept
    exact hkept ht

omit [DecidableEq ι] [DecidableEq κ] in
/-- The wrapping segment goes to the page table. -/
theorem Target.loaduvm (h : Target k D O x y z d e g f t) (hg : g < 0xE000) :
    wp (loaduvm k (strayFile g f) d 1 ⟨ELF_PROG_LOAD, 116, (userPages + g) * PGSIZE, 4,
        2 ^ 32 - (userPages + g) * PGSIZE⟩) (t, log)
      (fun ok t' => ok = true ∧ t'.1 = t.setWord g 0 (entry f (PTE_W ||| PTE_U)))
      (fun _ => False) := by
  have hU := userPages_eq
  have hP := PGSIZE_eq
  have hu : userPages + g < 2 ^ 20 := by omega
  have hpool : k.Pool g := by
    refine h.owns.held (.spine (.table y 0)) g ?_
    show spine t D (.table y 0) = some g
    rw [spine_table h.dir (by decide)]
    exact h.table
  have hpte : pteAt t d (userPages + g) = entry g PTE_W := by
    rw [h.kernel _ (by omega) hu, kernelPte_pool k hpool]
  obtain ⟨gt, hgt⟩ : ∃ gt, tableAt t d ((userPages + g) / NPTENTRIES) = some gt := by
    cases hno : tableAt t d ((userPages + g) / NPTENTRIES) with
    | some gt => exact ⟨gt, rfl⟩
    | none =>
      have hodd : entry g PTE_W % 2 = 1 := entry_odd
      rw [← hpte, pteAt, hno] at hodd
      simp at hodd
  have hal : ¬ (userPages + g) * PGSIZE % PGSIZE ≠ 0 := by
    rw [hP]
    omega
  have hva : ((userPages + g) * PGSIZE + 0) % 2 ^ 32 = (userPages + g) * PGSIZE := by
    rw [hU, hP]
    omega
  have hread : (strayFile g f).readi ((116 + 0) % 2 ^ 32) (min (4 - 0) PGSIZE) =
      some (Bytes.natBytes 4 (entry f (PTE_W ||| PTE_U))) := strayFile_bytes
  have hnil : Bytes.natBytes 4 (entry f (PTE_W ||| PTE_U)) ≠ [] := by
    intro hnil
    have hlen := Bytes.length_natBytes 4 (entry f (PTE_W ||| PTE_U))
    rw [hnil] at hlen
    simp at hlen
  have hfull : (Bytes.natBytes 4 (entry f (PTE_W ||| PTE_U))).length = min (4 - 0) PGSIZE :=
    Bytes.length_natBytes 4 _
  have hfuel : 2 ^ 20 = 2 ^ 20 - 2 + 1 + 1 := by norm_num
  have hend : ¬ (0 + PGSIZE) % 2 ^ 32 < 4 := by
    rw [hP]
    omega
  unfold Vm.loaduvm
  dsimp only
  rw [if_neg hal, hfuel, loadPages]
  dsimp only
  rw [if_pos (by norm_num), wp_bind, wp_beside, walkpgdir_find, hva, PDX_page hu, PTX_page, hgt,
    Option.map_some]
  dsimp only
  rw [wp_bind, wp_beside, wp_wordAt, ← pteAt_of_table hgt, hpte, hread]
  dsimp only
  rw [wp_bind, record, wp_modify, wp_bind, wp_beside, entry_div (by decide), storeBytes,
    if_neg hnil,
    if_pos hpool.not_text, wp_modify, if_pos hfull, loadPages, if_neg hend,
    wp_pure]
  exact ⟨rfl, rfl⟩

theorem Target.owns_stray (h : Target k D O x y z d e g f t) :
    Owns k (t.setWord g 0 (entry f (PTE_W ||| PTE_U))) D (Function.update O z none) := by
  have hU := userPages_eq
  have hout := h.owns.takeOut h.page
  have hflt := (h.owns.held (.other z) f h.page).lt
  have hw : entry f (PTE_W ||| PTE_U) < 2 ^ 32 := entry_lt hflt (by decide)
  have howned : owned (t.setWord g 0 (entry f (PTE_W ||| PTE_U))) D (Function.update O z none) =
      Function.update (owned t D (Function.update O z none)) (.user y 0) (some f) := by
    have hset := owned_setWord_user (O := Function.update O z none) (v := 0) h.owns.tables h.dir
      h.table (by omega) hw
    rw [frameOf, if_pos entry_odd, entry_div (by decide)] at hset
    exact hset
  have hexcl := hout.excl
  rw [owned_give] at hexcl
  refine ⟨?_, h.owns.pool, ?_⟩
  · rw [howned]
    exact hexcl.take _
  · intro w f' hw'
    rw [howned] at hw'
    by_cases hwy : w = .user y 0
    · rw [hwy, Function.update_self] at hw'
      rw [← Option.some.inj hw']
      exact h.owns.held (.other z) f h.page
    · rw [Function.update_of_ne hwy] at hw'
      refine hout.held w f' ?_
      rw [owned_give]
      exact hw'

/-- `exec` of the file fails, and leaves the process with the page of another. -/
theorem strayFile_exec (h : Owns k s D O) (hx : D x = none) (hy : D y = some e)
    (ht : tableAt s e 0 = some g) (hz : O z = some f) (hfree : 67 ≤ s.free.length) :
    wp (Vm.exec k e (strayFile g f) []) (s, [])
      (fun r t => r = none ∧ pteAt t.1 e 0 = entry f (PTE_W ||| PTE_U)) (fun _ => False) := by
  have hU := userPages_eq
  have hK := KERNBASE_eq
  have hpool : k.Pool g := by
    refine h.held (.spine (.table y 0)) g ?_
    show spine s D (.table y 0) = some g
    rw [spine_table hy (by decide)]
    exact ht
  have hg : g < 0xE000 := (k.pool_iff.mp hpool).2
  have hxy : y ≠ x := by
    rintro rfl
    rw [hx] at hy
    simp at hy
  rw [exec_eq, strayFile_elf]
  dsimp only
  rw [wp_bind, wp_beside]
  refine wp_mono (setupkvm_spec (x := x) h hx) ?_ (fun _ hf => hf)
  rintro r t1 ⟨hun, hnone, hsome⟩
  cases r with
  | none =>
    have := (hnone rfl).2.2
    omega
  | some d =>
    obtain ⟨hset, hlen⟩ := hsome d rfl
    have hmod : (0 + 1) % 2 ^ 32 = 1 := by norm_num
    have hwrap : ((userPages + g) * PGSIZE + (2 ^ 32 - (userPages + g) * PGSIZE)) % 2 ^ 32 = 0 := by
      rw [hU, PGSIZE_eq]
      omega
    have hoff : (52 + ProgHeader.size) % 2 ^ 32 = 84 := by decide
    have hoff' : (84 + ProgHeader.size) % 2 ^ 32 = 116 := by decide
    have hnofile : loaduvm k (strayFile g f) d 1 ⟨ELF_PROG_LOAD, 0, 0, 0, 1⟩ = pure true := by
      rw [Vm.loaduvm, if_neg (by simp), show 2 ^ 20 = 2 ^ 20 - 1 + 1 by norm_num, loadPages,
        if_neg (by simp)]
    have hsame : allocuvm k d 1 0 = pure 1 := by
      rw [allocuvm, if_neg (by decide), if_pos (by norm_num)]
    have htable : tableAt t1 e 0 = some g := hun.tables y e 0 g hy (by decide) ht
    dsimp only
    rw [wp_bind, makeImage, wp_bind, loadSegments_succ, strayFile_first]
    dsimp only
    rw [if_neg (by simp), if_neg (by simp), wp_bind, wp_beside, hmod]
    refine wp_mono (SetUp.target hset (by omega) hxy hy htable hz) ?_ (fun _ hf => hf)
    rintro _ t2 ⟨rfl, htarget⟩
    rw [if_neg (by norm_num), hnofile, wp_bind, wp_pure, if_pos rfl, hoff, loadSegments_succ,
      strayFile_second hg]
    dsimp only
    rw [if_neg (by simp), if_neg (by rw [hU, PGSIZE_eq]; omega), wp_bind, wp_beside, hwrap, hsame,
      wp_pure, if_neg (by norm_num), wp_bind]
    refine wp_mono (htarget.loaduvm hg) ?_ (fun _ hf => hf)
    rintro _ ⟨t3, log⟩ ⟨rfl, ht3⟩
    have ht3' : t3 = t2.setWord g 0 (entry f (PTE_W ||| PTE_U)) := ht3
    rw [if_pos rfl, hoff', loadSegments_succ, strayFile_third]
    dsimp only
    rw [wp_pure]
    dsimp only
    rw [wp_pure]
    dsimp only
    rw [wp_bind, wp_beside, ht3']
    refine wp_mono (freevm_spec htarget.owns_stray htarget.image) ?_ (fun _ hf => hf)
    rintro _ t4 ⟨-, hsame4⟩
    have hback : Function.update (Function.update D x (some d)) x none = D := by
      rw [Function.update_idem, Function.update_eq_self_iff.mpr hx.symm]
    have hw : entry f (PTE_W ||| PTE_U) < 2 ^ 32 :=
      entry_lt (h.held (.other z) f hz).lt (by decide)
    rw [hback] at hsame4
    rw [wp_pure]
    refine ⟨rfl, ?_⟩
    rw [hsame4 y e 0 hy (by norm_num)]
    have hset4 := htarget.owns.tables.pteAt_setWord (v := 0) htarget.dir htarget.table (by norm_num)
      hw htarget.dir (u := 0) (by norm_num)
    rw [if_pos ⟨rfl, rfl⟩] at hset4
    exact hset4

omit [DecidableEq κ] in
theorem Dense.inituvm (h : Dense k D O x d n 0 0 t) (hfree : 2 ≤ t.free.length) :
    wp (inituvm d []) t (fun _ t' => Dense k D O x d n 0 1 t') (fun _ => False) := by
  have hU := userPages_eq
  unfold Vm.inituvm
  rw [if_neg (by decide), wp_bind]
  refine wp_kalloc ?_ ?_
  · intro hnil
    rw [hnil] at hfree
    simp at hfree
  · intro f rest hcons
    have hmap := h.owns.mapTaken_spec h.dir 0 (by omega)
      (show PTE_W ||| PTE_U < PGSIZE by decide) hcons (fill 0)
    rw [Nat.zero_mul] at hmap
    dsimp only
    rw [wp_bind, wp_memset]
    refine wp_seq (wp_mono hmap (fun _ _ hq => hq) fun _ hq => ?_) ?_
    · have := h.absent 0 le_rfl (by omega)
      have := hq.2
      omega
    · rintro ok t' ⟨m, hm, hmapped, htrue, hfalse⟩
      obtain ⟨hone, hzero⟩ := h.step (by omega) hm hcons hmapped
      have hstore : t'.setPage f ((t'.page f).write 0 []) = t' := by
        rw [Bytes.write_nil, Mem.setPage, Function.update_eq_self]
      rw [wp_modify, hstore]
      cases ok with
      | true => exact hone (htrue rfl)
      | false =>
        obtain ⟨hm0, hnil, -⟩ := hfalse rfl
        have hlost := (hzero hm0).free
        have hall := h.free
        rw [hnil, List.length_nil] at hlost
        omega

end exec

namespace Kern

variable {k : Image} {s : Kern} {f : ℕ} {rest : List ℕ}

theorem allocproc_first (hall : ∀ p, (s.procs p).state = .unused) (hfree : s.mem.free ≠ []) :
    wp allocproc s (fun r t => r = some 0 ∧ t.mem.free.length + 1 = s.mem.free.length ∧
      t.pipes = s.pipes) (fun _ => False) := by
  have hfind : (List.range NPROC).find? (fun p => (s.procs p).state = .unused) = some 0 := by
    have hrange : List.range NPROC = 0 :: (List.range 63).map Nat.succ := rfl
    rw [hrange, List.find?_cons_of_pos (by simpa using hall 0)]
  unfold allocproc
  rw [wp_bind, wp_get, hfind]
  dsimp only
  rw [wp_bind, wp_store, wp_bind, wp_vm]
  refine wp_kalloc (fun hnil => absurd hnil hfree) ?_
  intro f rest hcons
  dsimp only
  rw [wp_bind, wp_store, wp_pure, show s.mem.free = f :: rest from hcons]
  exact ⟨rfl, rfl, rfl⟩

theorem userinit_first (h : Inv k s) (hall : ∀ p, (s.procs p).state = .unused)
    (hfree : 68 ≤ s.mem.free.length) :
    wp (userinit k []) s (fun _ t => ∃ d g, (t.procs 0).state = .runnable ∧
        (t.procs 0).pgdir = some d ∧ tableAt t.mem d 0 = some g ∧
        t.mem.free.length + 68 = s.mem.free.length ∧ t.pipes = s.pipes) (fun _ => False) := by
  have hne : s.mem.free ≠ [] := by
    intro hnil
    rw [hnil] at hfree
    simp at hfree
  obtain ⟨r, t, hrun, rfl, hlen, hpipes⟩ := wp_total (allocproc_first hall hne)
  obtain ⟨hinv, hstate⟩ := (wp_of_eq hrun).mp (allocproc_spec h)
  have hdir : (t.procs 0).dir = none := Proc.dir_eq_none (Or.inr (hstate 0 rfl))
  have hsetup := setupkvm_spec (x := Holder.proc 0) hinv.owns hdir
  unfold userinit
  rw [wp_bind, wp_of_eq hrun]
  dsimp only
  rw [wp_bind, wp_modify, wp_bind, wp_proc, wp_bind, wp_vm]
  refine wp_mono hsetup ?_ (fun _ hf => hf)
  rintro r m ⟨-, hnone, hsome⟩
  cases r with
  | none =>
    have := (hnone rfl).2.2
    omega
  | some d =>
    obtain ⟨hset, hlen'⟩ := hsome d rfl
    have hinit := Dense.inituvm hset.dense (by omega)
    dsimp only
    rw [wp_bind, wp_vm]
    refine wp_mono hinit ?_ (fun _ hf => hf)
    intro _ m' hdense
    rw [wp_store]
    obtain ⟨g, hg⟩ := Option.ne_none_iff_exists'.mp ((hdense.low 0 (by norm_num)).mpr (by norm_num))
    have hcount := hdense.free
    refine ⟨d, g, ?_, ?_, hg, ?_, hpipes⟩
    · simp only [setProc, Function.update_self]
    · simp only [setProc, Function.update_self]
    · show m'.free.length + 68 = s.mem.free.length
      rw [need] at hcount
      omega

theorem after_of_wp {α : Type} {m : KernM α} {Q : α → Kern → Prop}
    (hm : wp m s Q fun _ => False) : ∃ a t, s.after m = some t ∧ Q a t := by
  obtain ⟨a, t, hrun, hq⟩ := wp_total hm
  exact ⟨a, t, by rw [after, hrun], hq⟩

theorem exists_kinit1 (k : Image) (page : ℕ → Page) :
    ∃ t, (boot k page).step k .kinit1 = some t ∧ t.procs = (boot k page).procs ∧
      t.pipes = (boot k page).pipes ∧ t.mem.free.length = 1024 - k.firstFrame := by
  have hres : ∀ i < 1024 - k.firstFrame,
      (boot k page).reserve (k.firstFrame + i) = some (k.firstFrame + i) := by
    intro i hi
    exact if_pos (k.pool_iff.mpr ⟨by omega, by omega⟩)
  have hinj : Function.Injective Spot.reserve := fun f g heq => Spot.reserve.inj heq
  have hspec := freerange_spec (inv_boot k page).owns hinj hres
  rw [← kinit1_eq] at hspec
  have hwp : wp (kinit k.firstFrame (1024 - k.firstFrame) (Vm.kinit1 k)) (boot k page)
      (fun _ t => t.procs = (boot k page).procs ∧ t.pipes = (boot k page).pipes ∧
        t.mem.free.length = 1024 - k.firstFrame) (fun _ => False) := by
    unfold kinit
    rw [wp_bind, wp_get, if_pos hres, wp_bind, wp_vm]
    refine wp_mono hspec ?_ (fun _ hf => hf)
    rintro _ m ⟨-, -, hlen⟩
    rw [wp_modify]
    refine ⟨rfl, rfl, ?_⟩
    show m.free.length = 1024 - k.firstFrame
    rw [hlen]
    exact Nat.zero_add _
  obtain ⟨-, t, hstep, hq⟩ := after_of_wp hwp
  exact ⟨t, hstep, hq⟩

theorem pipealloc_first (hfree : s.mem.free ≠ []) (i : ℕ) :
    wp (pipealloc i) s (fun _ t => ∃ f, t.pipes i = some ⟨f, true, true⟩ ∧ t.procs = s.procs ∧
      t.mem.page = s.mem.page ∧ t.mem.free.length + 1 = s.mem.free.length) (fun _ => False) := by
  unfold pipealloc
  rw [wp_bind, wp_vm]
  refine wp_kalloc (fun hnil => absurd hnil hfree) ?_
  intro f rest hcons
  dsimp only
  rw [wp_bind, wp_modify, wp_pure, hcons]
  exact ⟨f, Function.update_self .., rfl, rfl, rfl⟩

theorem exists_pipe (page : ℕ → Page) :
    ∃ s d g f, Run.exec (Kern.step Spaces.sampleImage) (boot Spaces.sampleImage page)
        [.kinit1, .userinit [], .pipe 0] = some s ∧ Inv Spaces.sampleImage s ∧ s.Runs 0 ∧
      (s.procs 0).pgdir = some d ∧ tableAt s.mem d 0 = some g ∧ s.spot (.pipe 0) = some f ∧
      69 ≤ s.mem.free.length := by
  have hfirst : Spaces.sampleImage.firstFrame = 0x115 := by decide
  obtain ⟨s1, hs1, hprocs1, hpipes1, hlen1⟩ := exists_kinit1 Spaces.sampleImage page
  have hinv1 := (inv_boot _ _).step (c := .kinit1) trivial hs1
  rw [hfirst] at hlen1
  have hall : ∀ p, (s1.procs p).state = .unused := by
    intro p
    rw [hprocs1]
    rfl
  obtain ⟨-, s2, hs2, d, g, hrun, hd, hg, hlen2, hpipes2⟩ :=
    after_of_wp (userinit_first hinv1 hall (by omega))
  have hinit : s1.step Spaces.sampleImage (.userinit []) = some s2 := hs2
  have hinv2 := hinv1.step (c := .userinit []) trivial hinit
  have hne : s2.mem.free ≠ [] := by
    intro hnil
    rw [hnil] at hlen2
    simp only [List.length_nil] at hlen2
    omega
  obtain ⟨-, s3, hs3, f, hf, hprocs3, hpage3, hlen3⟩ := after_of_wp (pipealloc_first hne 0)
  have hpipe : s2.step Spaces.sampleImage (.pipe 0) = some s3 := by
    have hnone : (s2.pipes 0).isNone = true := by
      rw [hpipes2, hpipes1]
      rfl
    simp only [Kern.step]
    rw [if_pos hnone]
    exact hs3
  refine ⟨s3, d, g, f, ?_, hinv2.step (c := .pipe 0) trivial hpipe, ?_, ?_, ?_, ?_, by omega⟩
  · simp only [Run.exec, hs1, hinit, hpipe, Option.bind_some]
  · rw [Runs, hprocs3]
    exact hrun
  · rw [hprocs3]
    exact hd
  · rw [← hg]
    exact tableAt_congr (by rw [Mem.word, Mem.word, hpage3])
  · rw [spot, hf]
    rfl

/-- A run after which a process maps the page of a pipe. -/
theorem pages_shared :
    ∃ calls s, Run.exec (Kern.step Spaces.sampleImage) (boot Spaces.sampleImage fun _ => fill 0)
      calls = some s ∧ ¬ Exclusive s.mem.free (owned s.mem s.dir s.spot) := by
  obtain ⟨s, d, g, f, hreach, hinv, hrun, hd, hg, hf, hlen⟩ := exists_pipe fun _ => fill 0
  have hdir : s.dir (.proc 0) = some d := (Proc.dir_eq (Or.inl hrun)).trans hd
  obtain ⟨r, t, hexec, rfl, hpte⟩ := wp_total (strayFile_exec (x := Holder.image) hinv.owns rfl
    hdir hg hf (by omega))
  have hstep : s.step Spaces.sampleImage (.exec 0 (strayFile g f) []) =
      some { s with mem := t.1 } := by
    simp only [Kern.step]
    rw [if_pos hrun, after, exec, hd]
    dsimp only
    rw [hexec]
  have hlast : Run.exec (Kern.step Spaces.sampleImage) s [.exec 0 (strayFile g f) []] =
      some { s with mem := t.1 } := by
    simp only [Run.exec, hstep, Option.bind_some]
  refine ⟨_, { s with mem := t.1 }, Run.exec_append hreach hlast, ?_⟩
  · intro hexcl
    have huser : owned t.1 s.dir s.spot (.user (.proc 0) 0) = some f := by
      rw [owned_user hdir (by rw [userPages_eq]; norm_num), hpte, frameOf, if_pos entry_odd,
        entry_div (by decide)]
    have hsame := hexcl.inj (.user (.proc 0) 0) (.other (.pipe 0)) f huser hf
    simp at hsame

/-- A process that has made a pipe runs a program. -/
theorem pages_have_one_owner_exec :
    ∃ s, Run.exec (Kern.step Spaces.sampleImage) (boot Spaces.sampleImage fun _ => fill 0)
      [.kinit1, .userinit [], .pipe 0, .exec 0 (bss PGSIZE) [[104, 105]]] = some s ∧
      Exclusive s.mem.free (owned s.mem s.dir s.spot) := by
  obtain ⟨s, d, g, f, hreach, hinv, hrun, hd, -, -, hlen⟩ := exists_pipe fun _ => fill 0
  have hwrap : ¬(bss PGSIZE).Wrapping := (bss_placed (by decide)).not_wrapping
  have hload : (bss PGSIZE).Loadable s.mem.free.length := bss_loadable (by decide)
  have hargs := Exec.bss_not_nullArgs (n := s.mem.free.length) (by omega)
  have htame : s.Tame (.exec 0 (bss PGSIZE) [[104, 105]]) := ⟨fun hw => absurd hw hwrap, hargs⟩
  obtain ⟨t, ht⟩ : ∃ t, s.step Spaces.sampleImage (.exec 0 (bss PGSIZE) [[104, 105]]) = some t := by
    have hdir : s.dir (.proc 0) = some d := (Proc.dir_eq (Or.inl hrun)).trans hd
    have hspec := exec_spec hinv.owns (x := .image) rfl hdir (bss PGSIZE) [[104, 105]]
    simp only [Kern.step]
    rw [if_pos hrun, after, exec, hd]
    dsimp only
    cases hvm : Vm.exec Spaces.sampleImage d (bss PGSIZE) [[104, 105]] (s.mem, []) with
    | ok r u => cases r <;> exact ⟨_, rfl⟩
    | stop e =>
      rcases (wp_of_stop hvm).mp hspec with ⟨-, he, -⟩ | ⟨hno, -⟩
      · exact absurd (Exec.nullArgs_of_stop hinv.owns (x := .image) rfl hdir htame.1 hvm he) hargs
      · exact absurd hload hno
  have hall : Run.Along (Kern.step Spaces.sampleImage) Tame
      (boot Spaces.sampleImage fun _ => fill 0)
      [.kinit1, .userinit [], .pipe 0, .exec 0 (bss PGSIZE) [[104, 105]]] := by
    refine ⟨trivial, fun s1 h1 => ⟨trivial, fun s2 h2 =>
      ⟨trivial, fun s3 h3 => ⟨?_, fun _ _ => trivial⟩⟩⟩⟩
    simp only [Run.exec, h1, h2, h3, Option.bind_some, Option.some.injEq] at hreach
    exact hreach ▸ htame
  have hrun' := Run.exec_append hreach (show Run.exec (Kern.step Spaces.sampleImage) s
    [.exec 0 (bss PGSIZE) [[104, 105]]] = some t by simp only [Run.exec, ht, Option.bind_some])
  exact ⟨t, hrun', (pages_have_one_owner (fun _ => fill 0) hall hrun').1⟩

end Kern

end Xv6
