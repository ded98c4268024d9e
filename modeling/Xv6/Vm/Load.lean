import Xv6.Vm.Dense
import Xv6.Vm.Exec

/-! What `exec` does to the image it builds, for every file. -/
namespace Xv6
namespace Vm
open Prog

/-- An image of size `sz` as `exec` builds it; its last page may be missing. -/
structure Shape where
  sz : ℕ
  hole : Bool
  deriving DecidableEq

namespace Shape

def pages (st : Shape) : ℕ := if st.hole then pagesOf st.sz - 1 else pagesOf st.sz

/-- The image after `allocuvm` with `n` free pages in all, `none` for a failure. -/
def alloc (n : ℕ) (st : Shape) (newsz : ℕ) : Option Shape :=
  if KERNBASE ≤ newsz then none
  else if newsz < st.sz then some st
  else if pagesOf newsz = pagesOf st.sz then
    if newsz = 0 then none else some ⟨newsz, st.hole⟩
  else if st.hole then none
  else match fit n (pagesOf newsz) with
    | .full => some ⟨newsz, false⟩
    | .hole => some ⟨newsz, true⟩
    | .no => none

def HasTable (st : Shape) (u : ℕ) : Prop :=
  if u < userPages then u / 1024 * 1024 < st.pages else u / 1024 ∈ kernelTables

instance (st : Shape) (u : ℕ) : Decidable (st.HasTable u) := by
  unfold HasTable
  infer_instance

end Shape

/-- The directory of `x` holds an image of the given shape. -/
structure Shaped {ι κ : Type} (k : Image) (D : ι → Option ℕ) (O : κ → Option ℕ) (x : ι)
    (d n : ℕ) (st : Shape) (t : Mem) : Prop where
  dense : Dense k D O x d n (if st.hole then 1 else 0) st.pages t
  bound : st.sz < KERNBASE
  short : st.hole = true → need (pagesOf st.sz) = n + 1 ∧ pagesOf st.sz % 1024 = 1

section shaped

variable {ι κ : Type} [DecidableEq ι] {k : Image} {s t : Mem} {D : ι → Option ℕ}
  {O : κ → Option ℕ} {x : ι} {d n : ℕ} {st : Shape}

theorem fit_hole {n p : ℕ} (h : fit n p = .hole) : need p = n + 1 ∧ p % 1024 = 1 := by
  unfold fit at h
  split_ifs at h with h1 h2
  exact h2

theorem allocuvmFrom_done {newsz a : ℕ} (h : ¬ a < newsz) (fuel : ℕ) :
    allocuvmFrom d newsz fuel a = pure true := by
  cases fuel with
  | zero => rw [allocuvmFrom]
  | succ fuel => rw [allocuvmFrom, if_neg h]

omit [DecidableEq ι] in
theorem Shaped.free_nil (h : Shaped k D O x d n st t) (hh : st.hole = true) : t.free = [] := by
  have hfree := h.dense.free
  obtain ⟨h1, h2⟩ := h.short hh
  rw [if_pos hh, Shape.pages, if_pos hh] at hfree
  rw [need] at h1 hfree
  exact List.length_eq_zero_iff.mp (by omega)

theorem SetUp.shaped (h : SetUp k D O x d t) :
    Shaped k (Function.update D x (some d)) O x d t.free.length ⟨0, false⟩ t :=
  ⟨h.dense, by decide, by simp⟩

theorem Shaped.allocuvm [DecidableEq κ] (h : Shaped k D O x d n st s) (newsz : ℕ) :
    wp (allocuvm k d st.sz newsz) s
      (fun r t => match st.alloc n newsz with
        | none => r = 0 ∧ Owns k t D O
        | some st' => r = st'.sz ∧ r ≠ 0 ∧ Shaped k D O x d n st' t) (fun _ => False) := by
  have hbound := h.bound
  unfold Vm.allocuvm Shape.alloc
  by_cases hge : newsz ≥ KERNBASE
  · rw [if_pos hge, if_pos hge, wp_pure]
    exact ⟨rfl, h.dense.owns⟩
  · have hlt : newsz < KERNBASE := by omega
    have hmax := pagesOf_le_userPages hlt.le
    rw [userPages_eq] at hmax
    rw [if_neg hge, if_neg hge]
    by_cases hsmall : newsz < st.sz
    · rw [if_pos hsmall, if_pos hsmall, wp_pure]
      exact ⟨rfl, by omega, h⟩
    · have hmono := pagesOf_mono (a := st.sz) (b := newsz) (by omega)
      rw [if_neg hsmall, if_neg hsmall, PGROUNDUP_eq hbound.le]
      by_cases heq : pagesOf newsz = pagesOf st.sz
      · have hnot : ¬ pagesOf st.sz * PGSIZE < newsz := by
          rw [← lt_pagesOf]
          omega
        rw [allocuvmFrom_done hnot, wp_bind, wp_pure, if_pos rfl, wp_pure, if_pos heq]
        by_cases hzero : newsz = 0
        · rw [if_pos hzero]
          exact ⟨hzero, h.dense.owns⟩
        · rw [if_neg hzero]
          refine ⟨rfl, hzero, ?_, hlt, ?_⟩
          · rw [Shape.pages, heq]
            exact h.dense
          · intro hh
            rw [heq]
            exact h.short hh
      · rw [if_neg heq]
        by_cases hh : st.hole = true
        · rw [if_pos hh]
          refine wp_seq (wp_mono (allocuvmFrom_empty (h.free_nil hh) (by omega)) (fun _ _ hq => hq)
            fun _ hf => hf.elim) ?_
          rintro ok t ⟨rfl, hok⟩
          have hfalse : ok = false := by
            cases ok with
            | false => rfl
            | true =>
              have := hok.mp rfl
              omega
          rw [hfalse, if_neg (by simp)]
          refine wp_seq (wp_mono (deallocuvm_spec h.dense.owns h.dense.dir hlt.le)
            (fun _ _ hq => hq) fun _ hf => hf.elim) ?_
          rintro _ r ⟨-, hcl⟩
          rw [wp_pure]
          exact ⟨rfl, hcl.owns⟩
        · have hdense := h.dense
          rw [if_neg hh, Shape.pages, if_neg hh] at hdense
          rw [if_neg hh]
          refine wp_seq (hdense.allocuvmFrom hlt hmono (by omega)) ?_
          intro ok t halloc
          have hpos : newsz ≠ 0 := by
            intro hz
            exact heq (by rw [hz, show st.sz = 0 by omega])
          rw [Dense.Alloc] at halloc
          cases hfit : fit n (pagesOf newsz) with
          | full =>
            rw [hfit] at halloc
            rw [if_pos halloc.1, wp_pure]
            exact ⟨rfl, hpos, halloc.2, hlt, by simp⟩
          | hole =>
            rw [hfit] at halloc
            rw [if_pos halloc.1, wp_pure]
            exact ⟨rfl, hpos, halloc.2, hlt, fun _ => fit_hole hfit⟩
          | no =>
            rw [hfit] at halloc
            rw [if_neg (by rw [halloc.1]; simp)]
            refine wp_seq (wp_mono (deallocuvm_spec halloc.2 h.dense.dir hlt.le)
              (fun _ _ hq => hq) fun _ hf => hf.elim) ?_
            rintro _ r ⟨-, hcl⟩
            rw [wp_pure]
            exact ⟨rfl, hcl.owns⟩

omit [DecidableEq ι] in
theorem Shaped.hasTable (h : Shaped k D O x d n st t) {u : ℕ} (hu : u < 2 ^ 20) :
    st.HasTable u ↔ tableAt t d (u / NPTENTRIES) ≠ none := by
  have hN : NPTENTRIES = 1024 := rfl
  have hU := userPages_eq
  rw [hN, Shape.HasTable]
  split_ifs with hlt
  · exact (h.dense.low (u / 1024) (by omega)).symm
  · exact (h.dense.high (u / 1024) (by omega) (by omega)).symm

omit [DecidableEq ι] in
theorem Shaped.mapped (h : Shaped k D O x d n st t) {u : ℕ} (hu : u < pagesOf st.sz)
    (ht : tableAt t d (u / NPTENTRIES) ≠ none) :
    u < userPages ∧ ∃ f, pteAt t d u = entry f (PTE_W ||| PTE_U) := by
  have hmax := pagesOf_le_userPages h.bound.le
  have hU := userPages_eq
  have hN : NPTENTRIES = 1024 := rfl
  refine ⟨by omega, h.dense.mapped u ?_⟩
  rw [hN] at ht
  have hlow := (h.dense.low (u / 1024) (by omega)).mp ht
  rw [Shape.pages] at hlow ⊢
  split_ifs at hlow ⊢ with hh
  · have := (h.short hh).2
    omega
  · exact hu

omit [DecidableEq ι] in
theorem Shaped.setPage (h : Shaped k D O x d n st t) {f : ℕ} (hf : ∀ z, spine t D z ≠ some f)
    (p : Page) : Shaped k D O x d n st (t.setPage f p) := by
  have hU := userPages_eq
  have hsame := samePtes_setPage hf p
  have hdir := h.dense.dir
  have htab : ∀ i < 1024, tableAt (t.setPage f p) d i = tableAt t d i := by
    intro i hi
    rw [← spine_table hdir hi, spine_setPage hf, spine_table hdir hi]
  refine ⟨⟨hdir, h.dense.owns.setPage hf p, ?_, ?_, ?_, ?_, ?_, h.dense.bound, h.dense.free⟩,
    h.bound, h.short⟩
  · intro u h1 h2
    rw [hsame x d u hdir h2]
    exact h.dense.kernel u h1 h2
  · intro u hu
    have := h.dense.bound
    rw [hsame x d u hdir (by omega)]
    exact h.dense.mapped u hu
  · intro u h1 h2
    rw [hsame x d u hdir (by omega)]
    exact h.dense.absent u h1 h2
  · intro i hi
    rw [htab i (by omega)]
    exact h.dense.low i hi
  · intro i h1 h2
    rw [htab i h2]
    exact h.dense.high i h1 h2

end shaped

theorem Image.Pool.not_text {k : Image} {f : ℕ} (h : k.Pool f) :
    f * PGSIZE < PHYSTOP ∧ ¬ (EXTMEM ≤ f * PGSIZE ∧ f * PGSIZE < v2p k.data) := by
  have h1 := h.1
  have h2 := h.2
  obtain ⟨-, h3, h4⟩ := k.data_bounds
  have h5 := k.data_le
  refine ⟨h2, ?_⟩
  rw [p2v, KERNBASE, PGSIZE_eq] at h1
  rw [PHYSTOP, PGSIZE_eq] at h2
  rw [v2p, KERNBASE, PGSIZE_eq]
  omega

namespace Store

/-- The bytes go to a user page of the image, below its size. -/
def Good (e : Store) : Prop :=
  e.len = 0 ∨ (e.va + e.len ≤ e.sz ∧ e.sz < KERNBASE ∧ e.pte % 2 = 1 ∧ e.pte / PTE_U % 2 = 1)

instance (e : Store) : Decidable e.Good := by
  unfold Good
  infer_instance

end Store

def Grows {α : Type} (m : ExecM α) : Prop :=
  ∀ s, wp m s (fun _ t => s.2 <:+ t.2) (fun e => s.2 <:+ e.2)

namespace Grows

variable {α β : Type}

theorem pure (a : α) : Grows (pure a : ExecM α) := by
  intro s
  rw [wp_pure]

theorem bind {m : ExecM α} {f : α → ExecM β} (hm : Grows m) (hf : ∀ a, Grows (f a)) :
    Grows (m >>= f) := by
  intro s
  refine wp_seq (hm s) ?_
  intro a t ht
  exact wp_mono (hf a t) (fun _ _ h => ht.trans h) fun _ h => ht.trans h

theorem beside (m : VmM α) : Grows (m.beside : ExecM α) := by
  rintro ⟨s, l⟩
  rw [wp_beside]
  unfold wp
  cases m s <;> exact List.suffix_refl l

theorem record (e : Store) : Grows (record e) := by
  intro s
  unfold Vm.record
  rw [wp_modify]
  exact List.suffix_cons e s.2

theorem loadPages (k : Image) (file : ProgFile) (pgdir sz : ℕ) (ph : ProgHeader) (fuel i : ℕ) :
    Grows (loadPages k file pgdir sz ph fuel i) := by
  induction fuel generalizing i with
  | zero =>
    rw [Vm.loadPages]
    exact .pure _
  | succ fuel ih =>
    rw [Vm.loadPages]
    split_ifs
    · refine .bind (.beside _) ?_
      rintro (_ | ⟨t, j⟩)
      · exact .beside _
      · refine .bind (.beside _) ?_
        intro pte
        split
        · exact .pure _
        · refine .bind (.record _) fun _ => .bind (.beside _) fun _ => ?_
          split_ifs
          · exact ih _
          · exact .pure _
    · exact .pure _

theorem loaduvm (k : Image) (file : ProgFile) (pgdir sz : ℕ) (ph : ProgHeader) :
    Grows (loaduvm k file pgdir sz ph) := by
  unfold Vm.loaduvm
  split_ifs
  · exact .beside _
  · exact .loadPages k file pgdir sz ph _ _

theorem loadSegments (k : Image) (file : ProgFile) (pgdir n off sz : ℕ) :
    Grows (loadSegments k file pgdir n off sz) := by
  induction n generalizing off sz with
  | zero =>
    rw [Vm.loadSegments]
    exact .pure _
  | succ n ih =>
    rw [Vm.loadSegments]
    split
    · exact .pure _
    · split_ifs
      · exact .pure _
      · exact ih _ _
      · exact .pure _
      · refine .bind (.beside _) fun sz => ?_
        split_ifs
        · exact .pure _
        · refine .bind (.loaduvm k file pgdir _ _) fun ok => ?_
          split_ifs
          · exact ih _ _
          · exact .pure _

end Grows

/-- The panics of `loaduvm` and of the callers of `walkpgdir`. -/
def walkPanics : List String :=
  ["remap", "kfree", "clearpteu", "loaduvm: addr must be page aligned",
    "loaduvm: address should exist", "copyuvm: pte should exist", "copyuvm: page not present"]

namespace ProgHeader

def avail (ph : ProgHeader) (file : ProgFile) : ℕ :=
  if ph.off ≤ file.bytes.length then min ph.filesz (file.bytes.length - ph.off) else 0

/-- The pages of the segment from the `j`th on that `loaduvm` comes to have a page table, and
the bytes it stores there end below the size of the image. -/
def LoadsFrom (ph : ProgHeader) (file : ProgFile) (st : Shape) (j : ℕ) : Prop :=
  (∀ i, j ≤ i → i * PGSIZE < ph.filesz → i * PGSIZE ≤ ph.avail file →
    st.HasTable ((ph.vaddr + i * PGSIZE) % 2 ^ 32 / PGSIZE)) ∧
  (j * PGSIZE < ph.avail file → ph.vaddr + ph.avail file ≤ st.sz)

end ProgHeader

theorem ProgFile.length_lt (file : ProgFile) : file.bytes.length < 2 ^ 17 :=
  lt_of_le_of_lt file.small (by decide)

theorem ProgFile.readi_page (file : ProgFile) {ph : ProgHeader} {i : ℕ} (hoff : ph.off < 2 ^ 32)
    (hi : i ≤ ph.avail file) (hlt : i < ph.filesz) :
    (file.readi ((ph.off + i) % 2 ^ 32) (min (ph.filesz - i) PGSIZE) = none ∧ i = 0 ∧
      ph.avail file = 0) ∨
    ∃ bytes, file.readi ((ph.off + i) % 2 ^ 32) (min (ph.filesz - i) PGSIZE) = some bytes ∧
      bytes.length = min PGSIZE (ph.avail file - i) := by
  have hlen := file.length_lt
  have hP := PGSIZE_eq
  rw [ProgHeader.avail] at hi ⊢
  unfold ProgFile.readi
  by_cases hle : ph.off ≤ file.bytes.length
  · rw [if_pos hle] at hi ⊢
    have hmod : (ph.off + i) % 2 ^ 32 = ph.off + i := Nat.mod_eq_of_lt (by omega)
    right
    rw [hmod, if_neg (by rw [hP]; omega)]
    refine ⟨_, rfl, ?_⟩
    rw [List.length_take, List.length_drop]
    omega
  · rw [if_neg hle] at hi ⊢
    have hi0 : i = 0 := by omega
    subst hi0
    left
    rw [Nat.add_zero, Nat.mod_eq_of_lt hoff, if_pos (by omega)]
    exact ⟨rfl, rfl, rfl⟩

section load

variable {ι κ : Type} [DecidableEq ι] {k : Image} {t : Mem} {D : ι → Option ℕ}
  {O : κ → Option ℕ} {x : ι} {d n : ℕ} {st : Shape} {file : ProgFile} {ph : ProgHeader}
  {log : List Store}

structure Loaded (k : Image) (D : ι → Option ℕ) (O : κ → Option ℕ) (x : ι) (d n : ℕ) (st : Shape)
    (log : List Store) (t : Mem × List Store) : Prop where
  shaped : Shaped k D O x d n st t.1
  good : ∃ l, t.2 = l ++ log ∧ ∀ e ∈ l, e.Good

/-- Bytes have been stored beyond the image. -/
def Strayed (log : List Store) : Prop := ∃ e ∈ log, ¬ e.Good

theorem Strayed.suffix {l log : List Store} (h : Strayed l) (hl : l <:+ log) : Strayed log := by
  obtain ⟨e, he, hbad⟩ := h
  exact ⟨e, hl.subset he, hbad⟩

theorem Grows.strayed {α : Type} {m : ExecM α} (hm : Grows m) {s : Mem × List Store}
    (hs : Strayed s.2) : wp m s (fun _ t => Strayed t.2) (fun e => Strayed e.2) :=
  wp_mono (hm s) (fun _ _ h => hs.suffix h) fun _ h => hs.suffix h

omit [DecidableEq ι] in
theorem Shaped.storeBytes (h : Shaped k D O x d n st t) {u f : ℕ} (hu : u < userPages)
    (hpte : pteAt t d u = entry f (PTE_W ||| PTE_U)) (off : ℕ) (bytes : List UInt8) :
    wp (storeBytes k f off bytes) t (fun _ r => Shaped k D O x d n st r) (fun _ => False) := by
  have hf : frameOf (pteAt t d u) = some f := by
    rw [hpte, frameOf, if_pos entry_odd, entry_div (by decide)]
  have hpool : k.Pool f := by
    refine h.dense.owns.held (.user x u) f ?_
    rw [owned_user h.dense.dir hu]
    exact hf
  unfold Vm.storeBytes
  by_cases hnil : bytes = []
  · rw [if_pos hnil, wp_pure]
    exact h
  · rw [if_neg hnil, if_pos hpool.not_text, wp_modify]
    exact h.setPage (h.dense.owns.not_spine_of_user h.dense.dir hu hf) _

theorem ProgHeader.avail_le : ph.avail file ≤ ph.filesz := by
  rw [ProgHeader.avail]
  split_ifs <;> omega

theorem entry_user (f : ℕ) : entry f (PTE_W ||| PTE_U) / PTE_U % 2 = 1 := by
  have hval : (PTE_W ||| PTE_U) ||| PTE_P = 7 := by decide
  have hmod : entry f (PTE_W ||| PTE_U) % PGSIZE = (PTE_W ||| PTE_U) ||| PTE_P :=
    entry_mod (by decide)
  rw [hval, PGSIZE_eq] at hmod
  rw [PTE_U] at *
  omega

theorem ProgHeader.loadsFrom_of_end {j : ℕ} (h : ph.filesz ≤ j * PGSIZE) :
    ph.LoadsFrom file st j := by
  have havail : ph.avail file ≤ ph.filesz := ProgHeader.avail_le
  refine ⟨?_, by omega⟩
  intro i hji hlt _
  simp only [PGSIZE_eq] at *
  omega

theorem ProgHeader.loadsFrom_succ {j : ℕ}
    (htab : st.HasTable ((ph.vaddr + j * PGSIZE) % 2 ^ 32 / PGSIZE))
    (hfit : ph.vaddr + j * PGSIZE + min PGSIZE (ph.avail file - j * PGSIZE) ≤ st.sz) :
    ph.LoadsFrom file st j ↔ ph.LoadsFrom file st (j + 1) := by
  constructor
  · rintro ⟨h1, h2⟩
    refine ⟨fun i hi => h1 i (by omega), ?_⟩
    intro hlt
    refine h2 (lt_of_le_of_lt ?_ hlt)
    exact Nat.mul_le_mul_right PGSIZE (by omega)
  · rintro ⟨h1, h2⟩
    refine ⟨?_, ?_⟩
    · intro i hi h3 h4
      by_cases hij : i = j
      · rw [hij]
        exact htab
      · exact h1 i (by omega) h3 h4
    · intro hlt
      by_cases hnext : (j + 1) * PGSIZE < ph.avail file
      · exact h2 hnext
      · simp only [PGSIZE_eq] at *
        omega

theorem ProgHeader.next_page {j u len : ℕ} (hle : j * PGSIZE ≤ ph.avail file)
    (hlt : j * PGSIZE < ph.filesz) (hvu : ph.vaddr + j * PGSIZE = u * PGSIZE)
    (hlen : len = min PGSIZE (ph.avail file - j * PGSIZE))
    (hfit : u * PGSIZE + len ≤ st.sz ∨ len = 0)
    (hfull : len = min (ph.filesz - j * PGSIZE) PGSIZE)
    (htab : st.HasTable ((ph.vaddr + j * PGSIZE) % 2 ^ 32 / PGSIZE)) (hbound : st.sz < KERNBASE) :
    (j * PGSIZE + PGSIZE) % 2 ^ 32 = (j + 1) * PGSIZE ∧ ph.vaddr + (j + 1) * PGSIZE < 2 ^ 32 ∧
      ((j + 1) * PGSIZE ≤ ph.avail file ∨
        (ph.filesz ≤ (j + 1) * PGSIZE ∧ ph.avail file = ph.filesz)) ∧
      (ph.LoadsFrom file st j ↔ ph.LoadsFrom file st (j + 1)) := by
  have havail : ph.avail file < 2 ^ 17 := by
    have := file.length_lt
    rw [ProgHeader.avail]
    split_ifs <;> omega
  have hsucc : ph.LoadsFrom file st j ↔ ph.LoadsFrom file st (j + 1) := by
    have hin : ph.vaddr + j * PGSIZE + min PGSIZE (ph.avail file - j * PGSIZE) ≤ st.sz := by
      simp only [PGSIZE_eq] at hle hlt hvu hlen hfit hfull ⊢
      omega
    exact ProgHeader.loadsFrom_succ (j := j) htab hin
  refine ⟨?_, ?_, ?_, hsucc⟩
  · simp only [PGSIZE_eq] at *
    omega
  · rw [KERNBASE] at hbound
    simp only [PGSIZE_eq] at *
    omega
  · simp only [PGSIZE_eq] at *
    omega

/-- The last page of a segment that is cut short by the end of the file. -/
theorem ProgHeader.last_page {j u len : ℕ} (hle : j * PGSIZE ≤ ph.avail file)
    (hlt : j * PGSIZE < ph.filesz) (hvu : ph.vaddr + j * PGSIZE = u * PGSIZE)
    (hlen : len = min PGSIZE (ph.avail file - j * PGSIZE))
    (hfit : u * PGSIZE + len ≤ st.sz ∨ len = 0)
    (hfull : ¬ len = min (ph.filesz - j * PGSIZE) PGSIZE)
    (htab : st.HasTable ((ph.vaddr + j * PGSIZE) % 2 ^ 32 / PGSIZE)) :
    ph.LoadsFrom file st j ∧ ph.avail file ≠ ph.filesz := by
  have hle' : ph.avail file ≤ ph.filesz := ProgHeader.avail_le
  refine ⟨⟨?_, ?_⟩, ?_⟩
  · intro i hi h3 h4
    have hij : i = j := by
      simp only [PGSIZE_eq] at *
      omega
    rw [hij]
    exact htab
  · intro hpos
    simp only [PGSIZE_eq] at *
    omega
  · simp only [PGSIZE_eq] at *
    omega

omit [DecidableEq ι] in
theorem Loaded.cons {e : Store} {t : Mem × List Store}
    (h : Loaded k D O x d n st (e :: log) t) (he : e.Good) : Loaded k D O x d n st log t := by
  obtain ⟨l, hl, hgood⟩ := h.good
  refine ⟨h.shaped, l ++ [e], by rw [hl, List.append_assoc]; rfl, ?_⟩
  intro e' he'
  rcases List.mem_append.mp he' with h1 | h1
  · exact hgood e' h1
  · rw [List.mem_singleton.mp h1]
    exact he

omit [DecidableEq ι] in
theorem Shaped.storePage (h : Shaped k D O x d n st t) {u g : ℕ} {bytes : List UInt8}
    (ht : tableAt t d (u / NPTENTRIES) = some g)
    (hfit : u * PGSIZE + bytes.length ≤ st.sz ∨ bytes.length = 0) :
    (⟨u * PGSIZE, bytes.length, pteAt t d u, st.sz⟩ : Store).Good ∧
      wp (Vm.storeBytes k (pteAt t d u / PGSIZE) 0 bytes) t
        (fun _ r => Shaped k D O x d n st r) (fun _ => False) := by
  by_cases hzero : bytes.length = 0
  · have hnil : bytes = [] := List.length_eq_zero_iff.mp hzero
    refine ⟨Or.inl hzero, ?_⟩
    rw [hnil, Vm.storeBytes, if_pos rfl, wp_pure]
    exact h
  · have hin : u * PGSIZE + bytes.length ≤ st.sz := hfit.resolve_right hzero
    have hupages : u < pagesOf st.sz := by
      rw [lt_pagesOf]
      omega
    obtain ⟨huser, f, hpte⟩ := h.mapped hupages (by rw [ht]; simp)
    refine ⟨Or.inr ⟨hin, h.bound, ?_, ?_⟩, ?_⟩
    · show pteAt t d u % 2 = 1
      rw [hpte]
      exact entry_odd
    · show pteAt t d u / PTE_U % 2 = 1
      rw [hpte]
      exact entry_user f
    · rw [hpte, entry_div (by decide)]
      exact h.storeBytes huser hpte 0 bytes

omit [DecidableEq ι] in
/-- The loop of `loaduvm` stores inside the image, or it strays, or it panics. -/
theorem loadPages_spec {j fuel : ℕ} (h : Shaped k D O x d n st t) (hoff : ph.off < 2 ^ 32)
    (hal : ph.vaddr % PGSIZE = 0) (hv : ph.vaddr + j * PGSIZE < 2 ^ 32)
    (hj : j * PGSIZE ≤ ph.avail file ∨ (ph.filesz ≤ j * PGSIZE ∧ ph.avail file = ph.filesz))
    (hfuel : ph.avail file / PGSIZE + 2 ≤ j + fuel) :
    wp (loadPages k file d st.sz ph fuel (j * PGSIZE)) (t, log)
      (fun ok t' => (ph.LoadsFrom file st j ∧ Loaded k D O x d n st log t' ∧
          (ok = true ↔ ph.avail file = ph.filesz)) ∨
        (¬ ph.LoadsFrom file st j ∧ st.sz < ph.vaddr + ph.avail file ∧ Strayed t'.2))
      (fun e => ¬ ph.LoadsFrom file st j ∧
        (e.1 ∈ walkPanics ∨ (st.sz < ph.vaddr + ph.avail file ∧ Strayed e.2))) := by
  have hbound := h.bound
  induction fuel generalizing t j log with
  | zero =>
    rw [PGSIZE_eq] at hfuel hj
    have hend : ph.filesz ≤ j * PGSIZE ∧ ph.avail file = ph.filesz := by
      rw [PGSIZE_eq]
      omega
    rw [loadPages, wp_pure]
    exact Or.inl ⟨ProgHeader.loadsFrom_of_end hend.1, ⟨h, [], rfl, by simp⟩,
      fun _ => hend.2, fun _ => rfl⟩
  | succ fuel ih =>
    rw [loadPages]
    by_cases hlt : j * PGSIZE < ph.filesz
    · have hle : j * PGSIZE ≤ ph.avail file := by omega
      have hva : (ph.vaddr + j * PGSIZE) % 2 ^ 32 = ph.vaddr + j * PGSIZE := Nat.mod_eq_of_lt hv
      obtain ⟨u, hu⟩ : ∃ u, u = (ph.vaddr + j * PGSIZE) / PGSIZE := ⟨_, rfl⟩
      have hvu : ph.vaddr + j * PGSIZE = u * PGSIZE := by
        simp only [PGSIZE_eq] at *
        omega
      have hu20 : u < 2 ^ 20 := by
        rw [hvu, PGSIZE_eq] at hv
        omega
      have hudiv : u * PGSIZE / PGSIZE = u := by
        rw [PGSIZE_eq]
        omega
      rw [if_pos hlt, wp_bind, wp_beside, walkpgdir_find, hva, hvu, PDX_page hu20, PTX_page]
      cases ht : tableAt t d (u / NPTENTRIES) with
      | none =>
        rw [Option.map_none]
        dsimp only
        unfold ExecM.panic
        rw [wp_beside, wp_panic]
        refine ⟨?_, Or.inl (by simp [walkPanics])⟩
        rintro ⟨h1, -⟩
        have htab := h1 j le_rfl hlt hle
        rw [hva, hvu, hudiv, h.hasTable hu20] at htab
        exact htab ht
      | some g =>
        have htab : st.HasTable ((ph.vaddr + j * PGSIZE) % 2 ^ 32 / PGSIZE) := by
          rw [hva, hvu, hudiv, h.hasTable hu20, ht]
          simp
        rw [Option.map_some]
        dsimp only
        rw [wp_bind, wp_beside, wp_wordAt, ← pteAt_of_table ht]
        rcases file.readi_page hoff hle hlt with ⟨hread, hj0, hav0⟩ | ⟨bytes, hread, hlen⟩
        · rw [hread]
          dsimp only
          rw [wp_pure]
          refine Or.inl ⟨⟨?_, by omega⟩, ⟨h, [], rfl, by simp⟩, by simp, by omega⟩
          intro i hi _ h4
          have hij : i = j := by
            simp only [PGSIZE_eq] at *
            omega
          rw [hij]
          exact htab
        · rw [hread]
          dsimp only
          obtain ⟨e, he⟩ : ∃ e, e = (⟨u * PGSIZE, bytes.length, pteAt t d u, st.sz⟩ : Store) :=
            ⟨_, rfl⟩
          rw [← he, wp_bind, record, wp_modify]
          dsimp only
          by_cases hfit : u * PGSIZE + bytes.length ≤ st.sz ∨ bytes.length = 0
          · obtain ⟨hgood, hstore⟩ := h.storePage ht hfit
            rw [← he] at hgood
            rw [wp_bind, wp_beside]
            refine wp_mono hstore ?_ (fun _ hf => hf.elim)
            intro _ r hr
            by_cases hfull : bytes.length = min (ph.filesz - j * PGSIZE) PGSIZE
            · obtain ⟨hnext, hv', hj', hsucc⟩ := ProgHeader.next_page hle hlt hvu hlen hfit hfull
                htab hbound
              rw [if_pos hfull, hnext, hsucc]
              refine wp_post (ih hr hv' hj' (by omega)) ?_
              rintro ok t' (⟨h1, h2, h3⟩ | hbad)
              · exact Or.inl ⟨h1, h2.cons hgood, h3⟩
              · exact Or.inr hbad
            · rw [if_neg hfull, wp_pure]
              have hlast := ProgHeader.last_page hle hlt hvu hlen hfit hfull htab
              exact Or.inl ⟨hlast.1, ⟨hr, [e], rfl, by simpa using hgood⟩, by simp, by
                intro heq
                exact absurd heq hlast.2⟩
          · have hstray : Strayed (e :: log) := by
              refine ⟨e, List.mem_cons_self, ?_⟩
              rw [he]
              rintro (hz | ⟨hin, -⟩)
              · exact hfit (Or.inr hz)
              · exact hfit (Or.inl hin)
            have hout : st.sz < ph.vaddr + ph.avail file := by omega
            have hnot : ¬ ph.LoadsFrom file st j := by
              rintro ⟨-, h2⟩
              have := h2 (by omega)
              omega
            refine wp_mono (Grows.strayed (s := (t, e :: log)) ?_ hstray) ?_ ?_
            · refine .bind (.beside _) fun _ => ?_
              split_ifs
              · exact .loadPages k file d st.sz ph fuel _
              · exact .pure _
            · intro _ _ hs
              exact Or.inr ⟨hnot, hout, hs⟩
            · intro _ hs
              exact ⟨hnot, Or.inr ⟨hout, hs⟩⟩
    · have hend : ph.filesz ≤ j * PGSIZE := by omega
      have havail : ph.avail file = ph.filesz := by
        have : ph.avail file ≤ ph.filesz := ProgHeader.avail_le
        omega
      rw [if_neg hlt, wp_pure]
      exact Or.inl ⟨ProgHeader.loadsFrom_of_end hend, ⟨h, [], rfl, by simp⟩,
        fun _ => havail, fun _ => rfl⟩

/-- `loaduvm` finds the segment aligned and loads it inside the image. -/
def ProgHeader.Loads (ph : ProgHeader) (file : ProgFile) (st : Shape) : Prop :=
  ph.vaddr % PGSIZE = 0 ∧ ph.LoadsFrom file st 0

omit [DecidableEq ι] in
theorem loaduvm_spec (h : Shaped k D O x d n st t) (hoff : ph.off < 2 ^ 32)
    (hv : ph.vaddr < 2 ^ 32) :
    wp (loaduvm k file d st.sz ph) (t, log)
      (fun ok t' => (ph.Loads file st ∧ Loaded k D O x d n st log t' ∧
          (ok = true ↔ ph.avail file = ph.filesz)) ∨
        (¬ ph.Loads file st ∧ st.sz < ph.vaddr + ph.avail file ∧ Strayed t'.2))
      (fun e => ¬ ph.Loads file st ∧
        (e.1 ∈ walkPanics ∨ (st.sz < ph.vaddr + ph.avail file ∧ Strayed e.2))) := by
  unfold loaduvm
  by_cases hal : ph.vaddr % PGSIZE = 0
  · rw [if_neg (by simpa using hal)]
    have havail : ph.avail file < 2 ^ 17 := by
      have := file.length_lt
      rw [ProgHeader.avail]
      split_ifs <;> omega
    have hfuel : ph.avail file / PGSIZE + 2 ≤ 0 + 2 ^ 20 := by
      rw [PGSIZE_eq]
      omega
    rw [← Nat.zero_mul PGSIZE]
    refine wp_mono (loadPages_spec h hoff hal (by omega) (Or.inl (by omega)) hfuel) ?_ ?_
    · rintro ok t' (⟨h1, h2⟩ | ⟨h1, h2⟩)
      · exact Or.inl ⟨⟨hal, h1⟩, h2⟩
      · exact Or.inr ⟨fun hloads => h1 hloads.2, h2⟩
    · rintro e ⟨h1, h2⟩
      exact ⟨fun hloads => h1 hloads.2, h2⟩
  · rw [if_pos hal]
    unfold ExecM.panic
    rw [wp_beside, wp_panic]
    exact ⟨fun hloads => hal hloads.1, Or.inl (by simp [walkPanics])⟩

def ProgFile.header (file : ProgFile) (off : ℕ) : Option ProgHeader :=
  match file.readi off ProgHeader.size with
  | none => none
  | some l => if l.length ≠ ProgHeader.size then none else some (.ofBytes l)

/-- Every segment that `exec` comes to, of `c` program headers from `off` on, is aligned and
loaded inside the image, with `n` free pages. -/
def Scans (n : ℕ) (file : ProgFile) : ℕ → ℕ → Shape → Prop
  | 0, _, _ => True
  | c + 1, off, st =>
    match file.header off with
    | none => True
    | some ph =>
      if ph.type ≠ ELF_PROG_LOAD then Scans n file c ((off + ProgHeader.size) % 2 ^ 32) st
      else if ph.memsz < ph.filesz then True
      else match st.alloc n ((ph.vaddr + ph.memsz) % 2 ^ 32) with
        | none => True
        | some st' => ph.Loads file st' ∧
          (ph.avail file = ph.filesz → Scans n file c ((off + ProgHeader.size) % 2 ^ 32) st')

/-- The image after all segments are loaded, `none` if `exec` gives up on one of them. -/
def scan (n : ℕ) (file : ProgFile) : ℕ → ℕ → Shape → Option Shape
  | 0, _, st => some st
  | c + 1, off, st =>
    match file.header off with
    | none => none
    | some ph =>
      if ph.type ≠ ELF_PROG_LOAD then scan n file c ((off + ProgHeader.size) % 2 ^ 32) st
      else if ph.memsz < ph.filesz then none
      else match st.alloc n ((ph.vaddr + ph.memsz) % 2 ^ 32) with
        | none => none
        | some st' =>
          if ph.avail file = ph.filesz then scan n file c ((off + ProgHeader.size) % 2 ^ 32) st'
          else none

/-- One of the program headers is for a segment whose end wraps around. -/
def Wraps (file : ProgFile) : ℕ → ℕ → Prop
  | 0, _ => False
  | c + 1, off =>
    (∃ ph, file.header off = some ph ∧ ph.type = ELF_PROG_LOAD ∧ 2 ^ 32 ≤ ph.vaddr + ph.memsz) ∨
      Wraps file c ((off + ProgHeader.size) % 2 ^ 32)

/-- All program headers are in the file, and every segment holds its bytes and ends below
`KERNBASE`. -/
def WellFormed (file : ProgFile) : ℕ → ℕ → Prop
  | 0, _ => True
  | c + 1, off =>
    (∃ ph, file.header off = some ph ∧ (ph.type = ELF_PROG_LOAD → ph.filesz ≤ ph.memsz ∧
      (ph.vaddr + ph.memsz) % 2 ^ 32 < KERNBASE)) ∧
    WellFormed file c ((off + ProgHeader.size) % 2 ^ 32)

/-- How the loading of all segments ends, if none strays. -/
structure Built (k : Image) (D : ι → Option ℕ) (O : κ → Option ℕ) (x : ι) (d n : ℕ)
    (log : List Store) (r : Option ℕ) (t : Mem × List Store) : Prop where
  good : ∃ l, t.2 = l ++ log ∧ ∀ e ∈ l, e.Good
  owns : Owns k t.1 D O
  shaped : ∀ sz, r = some sz → ∃ st, st.sz = sz ∧ Shaped k D O x d n st t.1

structure Scanned (k : Image) (D : ι → Option ℕ) (O : κ → Option ℕ) (x : ι) (d n : ℕ)
    (o : Option Shape) (r : Option ℕ) (t : Mem) : Prop where
  size : r = o.map Shape.sz
  shaped : ∀ st, o = some st → Shaped k D O x d n st t

omit [DecidableEq ι] in
theorem Scanned.none (t : Mem) : Scanned k D O x d n none none t := ⟨rfl, by simp⟩

theorem uintAt_lt (l : List UInt8) (off : ℕ) : uintAt l off < 2 ^ 32 := by
  have hlen : ((l.drop off).take 4).length ≤ 4 := by
    rw [List.length_take]
    omega
  calc uintAt l off < 256 ^ ((l.drop off).take 4).length := Bytes.bytesNat_lt _
    _ ≤ 256 ^ 4 := Nat.pow_le_pow_right (by norm_num) hlen
    _ = 2 ^ 32 := by norm_num

theorem Shape.alloc_sz {newsz : ℕ} {st' : Shape} (h : st.alloc n newsz = some st') :
    st'.sz = max st.sz newsz ∧ newsz < KERNBASE := by
  unfold Shape.alloc at h
  split_ifs at h with h1 h2 h3 h4 h5
  · obtain rfl := Option.some.inj h
    omega
  · obtain rfl := Option.some.inj h
    dsimp only
    omega
  · cases hfit : fit n (pagesOf newsz) with
    | full =>
      rw [hfit] at h
      obtain rfl := Option.some.inj h
      dsimp only
      omega
    | hole =>
      rw [hfit] at h
      obtain rfl := Option.some.inj h
      dsimp only
      omega
    | no =>
      rw [hfit] at h
      simp at h

omit [DecidableEq ι] in
theorem Built.trans {log' : List Store} {r : Option ℕ} {t : Mem × List Store}
    (h : Built k D O x d n log' r t) (hlog : ∃ l, log' = l ++ log ∧ ∀ e ∈ l, e.Good) :
    Built k D O x d n log r t := by
  obtain ⟨l, rfl, hl⟩ := hlog
  obtain ⟨l', hl', hgood⟩ := h.good
  refine ⟨⟨l' ++ l, by rw [hl', List.append_assoc], ?_⟩, h.owns, h.shaped⟩
  intro e he
  rcases List.mem_append.mp he with he | he
  · exact hgood e he
  · exact hl e he

theorem ProgFile.header_lt {off : ℕ} (h : file.header off = some ph) :
    ph.off < 2 ^ 32 ∧ ph.vaddr < 2 ^ 32 := by
  unfold ProgFile.header at h
  split at h
  · simp at h
  · split_ifs at h
    rw [← Option.some.inj h]
    exact ⟨uintAt_lt _ _, uintAt_lt _ _⟩

theorem loadSegments_succ (k : Image) (file : ProgFile) (pgdir c off sz : ℕ) :
    loadSegments k file pgdir (c + 1) off sz = match file.header off with
      | none => pure none
      | some ph =>
        if ph.type ≠ ELF_PROG_LOAD then
          loadSegments k file pgdir c ((off + ProgHeader.size) % 2 ^ 32) sz
        else if ph.memsz < ph.filesz then pure none
        else do
          let sz ← (allocuvm k pgdir sz ((ph.vaddr + ph.memsz) % 2 ^ 32)).beside
          if sz = 0 then return none
          else do
            let ok ← loaduvm k file pgdir sz ph
            if ok then loadSegments k file pgdir c ((off + ProgHeader.size) % 2 ^ 32) sz
            else return none := by
  rw [loadSegments, ProgFile.header]
  cases file.readi off ProgHeader.size with
  | none => rfl
  | some l =>
    dsimp only
    by_cases hlen : l.length ≠ ProgHeader.size
    · rw [if_pos hlen, if_pos hlen]
    · rw [if_neg hlen, if_neg hlen]

/-- Loading all segments stores inside the image, or strays because the end of a segment has
wrapped around, or panics. -/
theorem loadSegments_spec [DecidableEq κ] {c off : ℕ} (h : Shaped k D O x d n st t) :
    wp (loadSegments k file d c off st.sz) (t, log)
      (fun r t' => (Scans n file c off st ∧ Built k D O x d n log r t' ∧
          (r ≠ none → WellFormed file c off) ∧
          Scanned k D O x d n (scan n file c off st) r t'.1) ∨
        (¬ Scans n file c off st ∧ Wraps file c off ∧ Strayed t'.2))
      (fun e => ¬ Scans n file c off st ∧
        (e.1 ∈ walkPanics ∨ (Wraps file c off ∧ Strayed e.2))) := by
  induction c generalizing t off st log with
  | zero =>
    rw [loadSegments, wp_pure]
    refine Or.inl ⟨trivial, ⟨⟨[], rfl, by simp⟩, h.dense.owns, ?_⟩, fun _ => trivial, rfl, ?_⟩
    · intro sz hsz
      exact ⟨st, Option.some.inj hsz, h⟩
    · rintro _ ⟨⟩
      exact h
  | succ c ih =>
    have hfail : Built k D O x d n log none (t, log) :=
      ⟨⟨[], rfl, by simp⟩, h.dense.owns, by simp⟩
    rw [loadSegments_succ, Scans, Wraps, WellFormed, scan]
    cases hhdr : file.header off with
    | none =>
      dsimp only
      rw [wp_pure]
      exact Or.inl ⟨trivial, hfail, by simp, .none _⟩
    | some ph =>
      dsimp only
      obtain ⟨hoff, hvaddr⟩ := file.header_lt hhdr
      by_cases htype : ph.type ≠ ELF_PROG_LOAD
      · rw [if_pos htype, if_pos htype, if_pos htype]
        refine wp_mono (ih h) ?_ (fun _ he => ⟨he.1, he.2.imp_right fun hs => ⟨Or.inr hs.1, hs.2⟩⟩)
        rintro r t' (⟨h1, h2, h3, h4⟩ | ⟨h1, h2, h3⟩)
        · exact Or.inl ⟨h1, h2, fun hr => ⟨⟨ph, rfl, fun hl => absurd hl htype⟩, h3 hr⟩, h4⟩
        · exact Or.inr ⟨h1, Or.inr h2, h3⟩
      · have hload : ph.type = ELF_PROG_LOAD := not_not.mp htype
        rw [if_neg htype, if_neg htype, if_neg htype]
        by_cases hmem : ph.memsz < ph.filesz
        · rw [if_pos hmem, if_pos hmem, if_pos hmem, wp_pure]
          exact Or.inl ⟨trivial, hfail, by simp, .none _⟩
        · rw [if_neg hmem, if_neg hmem, if_neg hmem, wp_bind, wp_beside]
          refine wp_mono (h.allocuvm _) ?_ (fun _ hf => hf.elim)
          intro sz t1 hsz
          cases halloc : st.alloc n ((ph.vaddr + ph.memsz) % 2 ^ 32) with
          | none =>
            rw [halloc] at hsz
            rw [if_pos hsz.1, wp_pure]
            exact Or.inl ⟨trivial, ⟨⟨[], rfl, by simp⟩, hsz.2, by simp⟩, by simp, .none _⟩
          | some st' =>
            rw [halloc] at hsz
            obtain ⟨rfl, hne, hshaped⟩ := hsz
            dsimp only
            rw [if_neg hne]
            have hle := Shape.alloc_sz halloc
            have havail : ph.avail file ≤ ph.filesz := ProgHeader.avail_le
            have hwraps : st'.sz < ph.vaddr + ph.avail file → 2 ^ 32 ≤ ph.vaddr + ph.memsz := by
              intro hout
              by_contra hno
              rw [Nat.mod_eq_of_lt (by omega)] at hle
              omega
            refine wp_seq (wp_mono (loaduvm_spec hshaped hoff hvaddr) (fun _ _ hq => hq)
              fun _ he => ⟨fun hs => he.1 hs.1, he.2.imp_right fun hs =>
                ⟨Or.inl ⟨ph, rfl, hload, hwraps hs.1⟩, hs.2⟩⟩) ?_
            rintro ok ⟨t2, log2⟩ (⟨h1, h2, h3⟩ | ⟨h1, h2, h3⟩)
            · cases ok with
              | false =>
                have hshort : ph.avail file ≠ ph.filesz := fun heq => by simpa using h3.mpr heq
                rw [if_neg (by simp), wp_pure, if_neg hshort]
                exact Or.inl ⟨⟨h1, fun heq => absurd heq hshort⟩,
                  ⟨h2.good, h2.shaped.dense.owns, by simp⟩, by simp, .none _⟩
              | true =>
                have hfull := h3.mp rfl
                rw [if_pos rfl, if_pos hfull]
                refine wp_mono (ih h2.shaped) ?_ ?_
                · rintro r t' (⟨h4, h5, h6, h7⟩ | ⟨h4, h5, h6⟩)
                  · refine Or.inl ⟨⟨h1, fun _ => h4⟩, h5.trans h2.good,
                      fun hr => ⟨⟨ph, rfl, ?_⟩, h6 hr⟩, h7⟩
                    exact fun _ => ⟨by omega, hle.2⟩
                  · exact Or.inr ⟨fun hs => h4 (hs.2 hfull), Or.inr h5, h6⟩
                · rintro e ⟨h4, h5⟩
                  exact ⟨fun hs => h4 (hs.2 hfull), h5.imp_right fun hs => ⟨Or.inr hs.1, hs.2⟩⟩
            · have hnot : ¬ (ph.Loads file st' ∧ (ph.avail file = ph.filesz →
                  Scans n file c ((off + ProgHeader.size) % 2 ^ 32) st')) := fun hs => h1 hs.1
              refine wp_mono (Grows.strayed (s := (t2, log2)) ?_ h3) ?_ ?_
              · split_ifs
                · exact .loadSegments k file d c _ _
                · exact .pure _
              · intro r t' hs
                exact Or.inr ⟨hnot, Or.inl ⟨ph, rfl, hload, hwraps h2⟩, hs⟩
              · intro e hs
                exact ⟨hnot, Or.inr ⟨Or.inl ⟨ph, rfl, hload, hwraps h2⟩, hs⟩⟩

end load

end Vm
end Xv6
