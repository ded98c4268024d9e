import Xv6.Vm.Load
import Xv6.Vm.Halves

/-! When `exec` is safe, for every file. -/
namespace Xv6
namespace Vm
open Prog

/-- The directory of `x`, whose upper half is the kernel's. -/
structure Held {ι κ : Type} (k : Image) (D : ι → Option ℕ) (O : κ → Option ℕ) (x : ι) (d : ℕ)
    (t : Mem) : Prop where
  dir : D x = some d
  owns : Owns k t D O
  kernel : ∀ u, userPages ≤ u → u < 2 ^ 20 → pteAt t d u = kernelPte k u

section stack

variable {ι κ : Type} {k : Image} {s t : Mem} {D : ι → Option ℕ} {O : κ → Option ℕ} {x y : ι}
  {d n : ℕ} {st : Shape}

theorem Shaped.held (h : Shaped k D O x d n st t) : Held k D O x d t :=
  ⟨h.dense.dir, h.dense.owns, h.dense.kernel⟩

theorem Held.storeBytes (h : Held k D O x d t) {u : ℕ} (hu : u < 2 ^ 20)
    (hp : pteAt t d u % 2 = 1) (huser : pteAt t d u / PTE_U % 2 = 1) (off : ℕ)
    (bytes : List UInt8) :
    wp (storeBytes k (pteAt t d u / PGSIZE) off bytes) t (fun _ r => Held k D O x d r)
      (fun _ => False) := by
  have hlow : u < userPages := by
    by_contra hge
    have hclosed := kernelPte_closed k u
    rw [h.kernel u (by omega) hu] at huser
    omega
  have hf : frameOf (pteAt t d u) = some (pteAt t d u / PGSIZE) := if_pos hp
  have hpool : k.Pool (pteAt t d u / PGSIZE) := by
    refine h.owns.held (.user x u) _ ?_
    rw [owned_user h.dir hlow]
    exact hf
  unfold Vm.storeBytes
  by_cases hnil : bytes = []
  · rw [if_pos hnil, wp_pure]
    exact h
  · have hspine := h.owns.not_spine_of_user h.dir hlow hf
    rw [if_neg hnil, if_pos hpool.not_text, wp_modify]
    refine ⟨h.dir, h.owns.setPage hspine _, ?_⟩
    intro v h1 h2
    rw [samePtes_setPage hspine _ x d v h.dir h2, h.kernel v h1 h2]

theorem copyoutFrom_spec {fuel va : ℕ} {bytes : List UInt8} (h : Held k D O x d t)
    (hva : va < 2 ^ 32) :
    wp (copyoutFrom k d fuel va bytes) t (fun _ r => Held k D O x d r)
      (fun e => e = "null pte") := by
  induction fuel generalizing t va bytes with
  | zero =>
    rw [copyoutFrom, wp_pure]
    exact h
  | succ fuel ih =>
    rw [copyoutFrom]
    by_cases hnil : bytes = []
    · rw [if_pos hnil, wp_pure]
      exact h
    · have hu : va / PGSIZE < 2 ^ 20 := by
        rw [PGSIZE_eq]
        omega
      obtain ⟨u, hue⟩ : ∃ u, u = va / PGSIZE := ⟨_, rfl⟩
      rw [← hue] at hu
      rw [if_neg hnil, wp_bind, uva2ka, PGROUNDDOWN, ← hue, wp_bind, walkpgdir_find, PDX_page hu,
        PTX_page]
      cases ht : tableAt t d (u / NPTENTRIES) with
      | none =>
        rw [Option.map_none]
        dsimp only
        rw [wp_panic]
      | some g =>
        rw [Option.map_some]
        dsimp only
        rw [wp_bind, wp_wordAt, wp_pure, ← pteAt_of_table ht]
        by_cases hp : pteAt t d u % 2 = 0
        · rw [if_pos hp]
          dsimp only
          rw [wp_pure]
          exact h
        · rw [if_neg hp]
          by_cases huser : pteAt t d u / PTE_U % 2 = 0
          · rw [if_pos huser]
            dsimp only
            rw [wp_pure]
            exact h
          · rw [if_neg huser]
            dsimp only
            refine wp_seq (wp_mono (h.storeBytes hu (by omega) (by omega) _ _)
              (fun _ _ hq => hq) fun _ hf => hf.elim) ?_
            intro _ r hr
            exact ih hr (Nat.mod_lt _ (Nat.two_pow_pos 32))

theorem copyout_spec {va : ℕ} {bytes : List UInt8} (h : Held k D O x d t) (hva : va < 2 ^ 32) :
    wp (copyout k d va bytes) t (fun _ r => Held k D O x d r) (fun e => e = "null pte") :=
  copyoutFrom_spec h hva

theorem pushStrings_spec {argv : List (List UInt8)} {argc sp : ℕ} {ps : List ℕ}
    (h : Held k D O x d t) :
    wp (pushStrings k d argv argc sp ps) t (fun _ r => Held k D O x d r)
      (fun e => e = "null pte") := by
  induction argv generalizing t argc sp ps with
  | nil =>
    rw [pushStrings, wp_pure]
    exact h
  | cons a as ih =>
    rw [pushStrings]
    by_cases hargc : argc ≥ MAXARG
    · rw [if_pos hargc, wp_pure]
      exact h
    · rw [if_neg hargc]
      refine wp_seq (copyout_spec h (by omega)) ?_
      intro ok r hr
      cases ok with
      | false =>
        rw [if_neg (by simp), wp_pure]
        exact hr
      | true =>
        rw [if_pos rfl]
        exact ih hr

theorem pushArgs_spec {sz : ℕ} {argv : List (List UInt8)} (h : Held k D O x d t) :
    wp (pushArgs k d sz argv) t (fun _ r => Held k D O x d r) (fun e => e = "null pte") := by
  unfold pushArgs
  refine wp_seq (pushStrings_spec h) ?_
  intro r t1 h1
  cases r with
  | none =>
    dsimp only
    rw [wp_pure]
    exact h1
  | some p =>
    obtain ⟨sp, ps⟩ := p
    have hlt : (sp + 2 ^ 32 - (3 + ps.length + 1) * 4) % 2 ^ 32 < 2 ^ 32 :=
      Nat.mod_lt _ (Nat.two_pow_pos 32)
    dsimp only
    refine wp_seq (copyout_spec h1 hlt) ?_
    intro ok t2 h2
    rw [wp_pure]
    exact h2

theorem Shaped.clearpteu [DecidableEq ι] [DecidableEq κ] (h : Shaped k D O x d n st t) {u : ℕ}
    (hu : u < userPages) (hlt : u < st.pages) :
    wp (clearpteu d (u * PGSIZE)) t (fun _ r => Held k D O x d r) (fun _ => False) := by
  have hU := userPages_eq
  have hu20 : u < 2 ^ 20 := by omega
  have htab : tableAt t d (u / NPTENTRIES) ≠ none := by
    rw [← h.hasTable hu20, Shape.HasTable, if_pos hu]
    omega
  have hdiv : u * PGSIZE / PGSIZE = u := by
    rw [PGSIZE_eq]
    omega
  refine wp_mono (clearpteu_spec h.dense.owns h.dense.dir hu20 hdiv) ?_ ?_
  · rintro _ r ⟨howns, -, -, hptes⟩
    refine ⟨h.dense.dir, howns, ?_⟩
    intro v h1 h2
    rw [hptes x d v h.dense.dir h2, if_neg (by omega), h.dense.kernel v h1 h2]
  · rintro e ⟨-, hnone⟩
    exact htab hnone

theorem Shaped.roundUp (h : Shaped k D O x d n st t) (hlt : pagesOf st.sz * PGSIZE < KERNBASE) :
    Shaped k D O x d n ⟨pagesOf st.sz * PGSIZE, st.hole⟩ t := by
  have hpages : pagesOf (pagesOf st.sz * PGSIZE) = pagesOf st.sz := by
    rw [pagesOf, PGSIZE_eq]
    omega
  refine ⟨?_, hlt, ?_⟩
  · rw [Shape.pages, hpages]
    exact h.dense
  · intro hh
    rw [hpages]
    exact h.short hh

/-- The image has its stack and its arguments, or there is a missing page table under them. -/
theorem makeStack_spec [DecidableEq ι] [DecidableEq κ] {argv : List (List UInt8)}
    (h : Shaped k D O x d n st t) :
    wp (makeStack k d st.sz argv) t
      (fun r t' => Owns k t' D O ∧ ∀ p, r = some p → Held k D O x d t' ∧ p.1 < KERNBASE)
      (fun e => e = "null pte") := by
  have hbound := h.bound
  have hK := KERNBASE_eq
  have hmax := pagesOf_le_userPages hbound.le
  rw [userPages_eq] at hmax
  unfold makeStack
  rw [PGROUNDUP_eq hbound.le]
  have hmod : (pagesOf st.sz * PGSIZE + 2 * PGSIZE) % 2 ^ 32 = (pagesOf st.sz + 2) * PGSIZE := by
    rw [PGSIZE_eq]
    omega
  rw [hmod]
  by_cases hlt : pagesOf st.sz * PGSIZE < KERNBASE
  · refine wp_seq (wp_mono ((h.roundUp hlt).allocuvm _) (fun _ _ hq => hq) fun _ hf => hf.elim) ?_
    intro sz t1 h1
    cases halloc : Shape.alloc n ⟨pagesOf st.sz * PGSIZE, st.hole⟩
      ((pagesOf st.sz + 2) * PGSIZE) with
    | none =>
      rw [halloc] at h1
      rw [if_pos h1.1, wp_pure]
      exact ⟨h1.2, by simp⟩
    | some st' =>
      rw [halloc] at h1
      obtain ⟨rfl, hne, h2⟩ := h1
      rw [if_neg hne]
      obtain ⟨hsz, -⟩ := Shape.alloc_sz halloc
      have hsz' : st'.sz = (pagesOf st.sz + 2) * PGSIZE := by
        simp only [PGSIZE_eq] at hsz ⊢
        omega
      have huva : (st'.sz + 2 ^ 32 - 2 * PGSIZE) % 2 ^ 32 = pagesOf st.sz * PGSIZE := by
        rw [hsz', PGSIZE_eq]
        omega
      have hpages : pagesOf st.sz < st'.pages := by
        have htwo : pagesOf st'.sz = pagesOf st.sz + 2 := by
          rw [hsz', pagesOf, PGSIZE_eq]
          omega
        rw [Shape.pages]
        split_ifs <;> omega
      have huser : pagesOf st.sz < userPages := by
        rw [userPages_eq]
        simp only [PGSIZE_eq] at hlt
        omega
      rw [huva]
      refine wp_seq (wp_mono (h2.clearpteu huser hpages) (fun _ _ hq => hq) fun _ hf => hf.elim) ?_
      intro _ t2 h3
      refine wp_seq (pushArgs_spec h3) ?_
      intro r t3 h4
      cases r with
      | none =>
        dsimp only
        rw [wp_pure]
        exact ⟨h4.owns, by simp⟩
      | some sp =>
        dsimp only
        rw [wp_pure]
        refine ⟨h4.owns, ?_⟩
        intro p hp
        rw [← Option.some.inj hp]
        exact ⟨h4, h2.bound⟩
  · have hge : (pagesOf st.sz + 2) * PGSIZE ≥ KERNBASE := by
      rw [PGSIZE_eq] at *
      omega
    rw [allocuvm, if_pos hge, wp_bind, wp_pure, if_pos rfl, wp_pure]
    exact ⟨h.dense.owns, by simp⟩

end stack

namespace ProgFile

def elf (file : ProgFile) : Option ElfHeader :=
  match file.readi 0 ElfHeader.size with
  | none => none
  | some l =>
    if l.length < ElfHeader.size then none
    else if (ElfHeader.ofBytes l).magic ≠ ELF_MAGIC then none
    else some (.ofBytes l)

/-- With `n` free pages, every segment that `exec` comes to is aligned and inside the image. -/
def Loadable (file : ProgFile) (n : ℕ) : Prop :=
  match file.elf with
  | none => True
  | some hdr => n < 65 ∨ Scans (n - 65) file hdr.phnum hdr.phoff ⟨0, false⟩

/-- The file has no ELF header, or one of its program headers is missing, holds more bytes than
its segment or ends above `KERNBASE`. -/
def Malformed (file : ProgFile) : Prop :=
  match file.elf with
  | none => True
  | some hdr => ¬ WellFormed file hdr.phnum hdr.phoff

/-- The end of one of the segments wraps around. -/
def Wrapping (file : ProgFile) : Prop :=
  match file.elf with
  | none => False
  | some hdr => Wraps file hdr.phnum hdr.phoff

end ProgFile

section exec

variable {ι κ : Type} [DecidableEq ι] {k : Image} {s t : Mem} {D : ι → Option ℕ}
  {O : κ → Option ℕ} {x y : ι} {d n old : ℕ} {file : ProgFile} {argv : List (List UInt8)}

theorem exec_eq (k : Image) (old : ℕ) (file : ProgFile) (argv : List (List UInt8)) :
    exec k old file argv = match file.elf with
      | none => pure none
      | some hdr => do
        match ← (setupkvm k).beside with
        | none => return none
        | some pgdir => do
          match ← makeImage k file hdr pgdir argv with
          | none => do
            (freevm k pgdir).beside
            return none
          | some (sz, sp) => do
            (freevm k old).beside
            return some (pgdir, sz, sp) := by
  unfold exec ProgFile.elf
  cases file.readi 0 ElfHeader.size with
  | none => rfl
  | some l =>
    dsimp only
    by_cases hlen : l.length < ElfHeader.size
    · rw [if_pos hlen, if_pos hlen]
    · rw [if_neg hlen, if_neg hlen]
      by_cases hmagic : (ElfHeader.ofBytes l).magic ≠ ELF_MAGIC
      · rw [if_pos hmagic, if_pos hmagic]
      · rewrite [if_neg hmagic, if_neg hmagic]
        rfl

theorem makeImage_spec [DecidableEq κ] {hdr : ElfHeader} (h : Shaped k D O x d n ⟨0, false⟩ t) :
    wp (makeImage k file hdr d argv) (t, [])
      (fun r t' => (Scans n file hdr.phnum hdr.phoff ⟨0, false⟩ ∧ (∀ e ∈ t'.2, e.Good) ∧
          Owns k t'.1 D O ∧ ∀ p, r = some p → WellFormed file hdr.phnum hdr.phoff ∧
            Held k D O x d t'.1 ∧ p.1 < KERNBASE) ∨
        (¬ Scans n file hdr.phnum hdr.phoff ⟨0, false⟩ ∧ Wraps file hdr.phnum hdr.phoff ∧
          Strayed t'.2))
      (fun e => (Scans n file hdr.phnum hdr.phoff ⟨0, false⟩ ∧ e.1 = "null pte" ∧
          (∀ e' ∈ e.2, e'.Good) ∧ WellFormed file hdr.phnum hdr.phoff) ∨
        (¬ Scans n file hdr.phnum hdr.phoff ⟨0, false⟩ ∧
          (e.1 ∈ walkPanics ∨ (Wraps file hdr.phnum hdr.phoff ∧ Strayed e.2)))) := by
  unfold makeImage
  refine wp_seq (wp_mono (loadSegments_spec h) (fun _ _ hq => hq) fun _ he => Or.inr he) ?_
  rintro r ⟨t1, log⟩ (⟨hscan, hbuilt, hwf, -⟩ | ⟨hscan, hwraps, hstray⟩)
  · have hgood : ∀ e ∈ log, e.Good := by
      obtain ⟨l, hl, hgood⟩ := hbuilt.good
      rw [List.append_nil] at hl
      rw [show log = l from hl]
      exact hgood
    cases r with
    | none =>
      dsimp only
      rw [wp_pure]
      exact Or.inl ⟨hscan, hgood, hbuilt.owns, by simp⟩
    | some sz =>
      obtain ⟨st, rfl, hshaped⟩ := hbuilt.shaped sz rfl
      dsimp only
      rw [wp_beside]
      refine wp_mono (makeStack_spec hshaped) ?_ ?_
      · rintro r t2 ⟨howns, hheld⟩
        exact Or.inl ⟨hscan, hgood, howns, fun p hp => ⟨hwf (by simp), hheld p hp⟩⟩
      · intro e he
        exact Or.inl ⟨hscan, he, hgood, hwf (by simp)⟩
  · refine wp_mono (Grows.strayed (s := (t1, log)) ?_ hstray) ?_ ?_
    · cases r with
      | none => exact .pure _
      | some sz => exact .beside _
    · intro _ _ hs
      exact Or.inr ⟨hscan, hwraps, hs⟩
    · intro _ hs
      exact Or.inr ⟨hscan, Or.inr ⟨hwraps, hs⟩⟩

/-- How `exec` of a loadable file by `y` ends: the pages are held as before, or `x` has the new
image and `y` has none. -/
structure Execed (k : Image) (D : ι → Option ℕ) (O : κ → Option ℕ) (x y : ι) (file : ProgFile)
    (r : Option (ℕ × ℕ × ℕ)) (t : Mem × List Store) : Prop where
  good : ∀ e ∈ t.2, e.Good
  failed : r = none → Owns k t.1 D O
  made : ∀ p, r = some p → ¬ file.Malformed ∧ p.2.1 < KERNBASE ∧
    Owns k t.1 (Function.update (Function.update D x (some p.1)) y none) O

theorem exec_spec [DecidableEq κ] (h : Owns k s D O) (hx : D x = none) (hy : D y = some old)
    (file : ProgFile) (argv : List (List UInt8)) :
    wp (exec k old file argv) (s, [])
      (fun r t => (file.Loadable s.free.length ∧ Execed k D O x y file r t) ∨
        (¬ file.Loadable s.free.length ∧ file.Wrapping ∧ Strayed t.2))
      (fun e => (file.Loadable s.free.length ∧ e.1 = "null pte" ∧ (∀ e' ∈ e.2, e'.Good) ∧
          ¬ file.Malformed) ∨
        (¬ file.Loadable s.free.length ∧
          (e.1 ∈ walkPanics ∨ (file.Wrapping ∧ Strayed e.2)))) := by
  rw [exec_eq]
  unfold ProgFile.Loadable ProgFile.Wrapping
  cases hhdr : file.elf with
  | none =>
    dsimp only
    rw [wp_pure]
    exact Or.inl ⟨trivial, by simp, fun _ => h, by simp⟩
  | some hdr =>
    have hmal : ¬ file.Malformed ↔ WellFormed file hdr.phnum hdr.phoff := by
      unfold ProgFile.Malformed
      rw [hhdr]
      exact not_not
    dsimp only
    rw [wp_bind, wp_beside]
    refine wp_mono (setupkvm_spec (x := x) h hx) ?_ (fun _ hf => hf.elim)
    rintro r t ⟨-, hnone, hsome⟩
    cases r with
    | none =>
      dsimp only
      rw [wp_pure]
      exact Or.inl ⟨Or.inl (hnone rfl).2.2, by simp, fun _ => (hnone rfl).1, by simp⟩
    | some d =>
      obtain ⟨hset, hlen⟩ := hsome d rfl
      have hscan : (s.free.length < 65 ∨ Scans (s.free.length - 65) file hdr.phnum hdr.phoff
          ⟨0, false⟩) ↔ Scans t.free.length file hdr.phnum hdr.phoff ⟨0, false⟩ := by
        rw [hlen, Nat.add_sub_cancel]
        simp
      have hxy : y ≠ x := by
        rintro rfl
        rw [hx] at hy
        simp at hy
      rw [hscan, hmal]
      dsimp only
      refine wp_seq (makeImage_spec hset.shaped) ?_
      rintro r ⟨t1, log⟩ (⟨hs, hgood, howns, hheld⟩ | ⟨hs, hwraps, hstray⟩)
      · cases r with
        | none =>
          dsimp only
          rw [wp_bind, wp_beside]
          refine wp_mono (freevm_spec howns (Function.update_self ..)) ?_ (fun _ hf => hf.elim)
          rintro _ t2 ⟨howns2, -⟩
          rw [wp_pure]
          rw [Function.update_idem, Function.update_eq_self_iff.mpr hx.symm] at howns2
          exact Or.inl ⟨hs, hgood, fun _ => howns2, by simp⟩
        | some p =>
          obtain ⟨hwf, -, hsz⟩ := hheld p rfl
          dsimp only
          rw [wp_bind, wp_beside]
          have hy' : Function.update D x (some d) y = some old := by
            rw [Function.update_of_ne hxy, hy]
          refine wp_mono (freevm_spec howns hy') ?_ (fun _ hf => hf.elim)
          rintro _ t2 ⟨howns2, -⟩
          rw [wp_pure]
          refine Or.inl ⟨hs, hgood, by simp, ?_⟩
          intro q hq
          rw [← Option.some.inj hq]
          exact ⟨hmal.mpr hwf, hsz, howns2⟩
      · refine wp_mono (Grows.strayed (s := (t1, log)) ?_ hstray) ?_ ?_
        · cases r with
          | none => exact .bind (.beside _) fun _ => .pure _
          | some p => exact .bind (.beside _) fun _ => .pure _
        · intro _ _ hs'
          exact Or.inr ⟨hs, hwraps, hs'⟩
        · intro _ hs'
          exact Or.inr ⟨hs, Or.inr ⟨hwraps, hs'⟩⟩

/-- No panic of `loaduvm` or of a caller of `walkpgdir`, and no store of `loaduvm` outside the
user pages of the image. -/
def Safe (o : Outcome (String × List Store) (Mem × List Store) (Option (ℕ × ℕ × ℕ))) : Prop :=
  match o with
  | .ok _ t => ∀ e ∈ t.2, e.Good
  | .stop e => e.1 ∉ walkPanics ∧ ∀ e' ∈ e.2, e'.Good

theorem Safe.loadable [DecidableEq κ] (h : Owns k s D O) (hx : D x = none) (hy : D y = some old)
    (hsafe : Safe (exec k old file argv (s, []))) : file.Loadable s.free.length := by
  have hspec := exec_spec h hx hy file argv
  by_contra hload
  cases hrun : exec k old file argv (s, []) with
  | ok r t =>
    rw [hrun] at hsafe
    rw [wp_of_eq hrun] at hspec
    rcases hspec with ⟨hl, -⟩ | ⟨-, -, e, he, hbad⟩
    · exact hload hl
    · exact hbad (hsafe e he)
  | stop e =>
    rw [hrun] at hsafe
    rw [wp_of_stop hrun] at hspec
    rcases hspec with ⟨hl, -⟩ | ⟨-, hmsg | ⟨-, e', he', hbad⟩⟩
    · exact hload hl
    · exact hsafe.1 hmsg
    · exact hbad (hsafe.2 e' he')

/-- `exec` is safe, and refuses malformed files, exactly if the segments it comes to are
loadable. -/
theorem exec_safe_iff [DecidableEq κ] (h : Owns k s D O) (hx : D x = none) (hy : D y = some old)
    (file : ProgFile) (argv : List (List UInt8)) :
    (Safe (exec k old file argv (s, [])) ∧
      (file.Malformed → ∃ t, exec k old file argv (s, []) = .ok none t)) ↔
    file.Loadable s.free.length := by
  refine ⟨fun hsafe => hsafe.1.loadable h hx hy, fun hload => ?_⟩
  have hspec := exec_spec h hx hy file argv
  have hnull : "null pte" ∉ walkPanics := by decide
  cases hrun : exec k old file argv (s, []) with
  | ok r t =>
    rw [wp_of_eq hrun] at hspec
    obtain ⟨-, hexec⟩ := hspec.resolve_right fun hno => hno.1 hload
    refine ⟨hexec.good, ?_⟩
    intro hmal
    cases r with
    | none => exact ⟨t, rfl⟩
    | some p => exact absurd hmal (hexec.made p rfl).1
  | stop e =>
    rw [wp_of_stop hrun] at hspec
    obtain ⟨-, hmsg, hgood, hwf⟩ := hspec.resolve_right fun hno => hno.1 hload
    exact ⟨⟨hmsg ▸ hnull, hgood⟩, fun hmal => absurd hmal hwf⟩

end exec

def words (ws : List ℕ) : List UInt8 := ws.flatMap (Bytes.natBytes 4)

theorem length_words (ws : List ℕ) : (words ws).length = 4 * ws.length := by
  induction ws with
  | nil => rfl
  | cons w ws ih =>
    rw [words, List.flatMap_cons, List.length_append, Bytes.length_natBytes, List.length_cons]
    rw [words] at ih
    omega

theorem drop_words (ws : List ℕ) (i : ℕ) : (words ws).drop (4 * i) = words (ws.drop i) := by
  induction i generalizing ws with
  | zero => rfl
  | succ i ih =>
    cases ws with
    | nil => rw [words, List.flatMap_nil, List.drop_nil, List.drop_nil, words, List.flatMap_nil]
    | cons w ws =>
      have hlen : 4 * (i + 1) = (Bytes.natBytes 4 w).length + 4 * i := by
        rw [Bytes.length_natBytes]
        omega
      rw [words, List.flatMap_cons, hlen, List.drop_length_add_append, List.drop_succ_cons]
      exact ih ws

theorem take_words (ws : List ℕ) (i : ℕ) : (words ws).take (4 * i) = words (ws.take i) := by
  induction i generalizing ws with
  | zero => rfl
  | succ i ih =>
    cases ws with
    | nil => rw [words, List.flatMap_nil, List.take_nil, List.take_nil, words, List.flatMap_nil]
    | cons w ws =>
      have hlen : 4 * (i + 1) = (Bytes.natBytes 4 w).length + 4 * i := by
        rw [Bytes.length_natBytes]
        omega
      rw [words, List.flatMap_cons, hlen, List.take_length_add_append, List.take_succ_cons, words,
        List.flatMap_cons]
      exact congrArg _ (ih ws)

theorem uintAt_words (ws : List ℕ) (i : ℕ) : uintAt (words ws) (4 * i) = ws.getD i 0 % 2 ^ 32 := by
  have hget : ws.getD i 0 = (ws.drop i).headD 0 := by
    rw [List.getD_eq_getElem?_getD, List.headD_eq_head?_getD, List.head?_drop]
  rw [uintAt, drop_words, hget]
  cases ws.drop i with
  | nil => rfl
  | cons w rest =>
    rw [words, List.flatMap_cons, List.take_left' (Bytes.length_natBytes 4 w),
      Bytes.bytesNat_natBytes]
    rfl

theorem ushortAt_words (ws : List ℕ) (i : ℕ) :
    ushortAt (words ws) (4 * i) = ws.getD i 0 % 2 ^ 16 := by
  have hget : ws.getD i 0 = (ws.drop i).headD 0 := by
    rw [List.getD_eq_getElem?_getD, List.headD_eq_head?_getD, List.head?_drop]
  rw [ushortAt, drop_words, hget]
  cases ws.drop i with
  | nil => rfl
  | cons w rest =>
    have htake : (words (w :: rest)).take 2 = Bytes.natBytes 2 w := rfl
    rw [htake, Bytes.bytesNat_natBytes]
    rfl

def ofWords (ws : List ℕ) (h : ws.length ≤ 17920) : ProgFile where
  bytes := words ws
  small := by
    have hmax : MAXFILE * BSIZE = 71680 := by decide
    rw [length_words, hmax]
    omega

theorem readi_ofWords {ws : List ℕ} (h : ws.length ≤ 17920) {i n : ℕ} (hin : i + n ≤ ws.length) :
    (ofWords ws h).readi (4 * i) (4 * n) = some (words ((ws.drop i).take n)) := by
  unfold ProgFile.readi
  rw [ofWords, if_neg (by rw [length_words]; omega), drop_words, take_words]

theorem getD_part (ws : List ℕ) {i n j : ℕ} (hj : j < n) :
    ((ws.drop i).take n).getD j 0 = ws.getD (i + j) 0 := by
  rw [List.getD_eq_getElem?_getD, List.getD_eq_getElem?_getD, List.getElem?_take_of_lt hj,
    List.getElem?_drop]

theorem elf_ofWords {ws : List ℕ} (h : ws.length ≤ 17920) (hlen : 13 ≤ ws.length)
    (hmagic : ws.getD 0 0 = ELF_MAGIC) :
    (ofWords ws h).elf = some ⟨ELF_MAGIC, ws.getD 7 0 % 2 ^ 32, ws.getD 11 0 % 2 ^ 16⟩ := by
  have hread : (ofWords ws h).readi 0 ElfHeader.size = some (words ((ws.drop 0).take 13)) :=
    readi_ofWords h (i := 0) (n := 13) (by omega)
  have hhdr : ElfHeader.ofBytes (words ((ws.drop 0).take 13)) =
      ⟨ELF_MAGIC, ws.getD 7 0 % 2 ^ 32, ws.getD 11 0 % 2 ^ 16⟩ := by
    have h0 := uintAt_words ((ws.drop 0).take 13) 0
    have h7 := uintAt_words ((ws.drop 0).take 13) 7
    have h11 := ushortAt_words ((ws.drop 0).take 13) 11
    rw [getD_part ws (by norm_num), Nat.zero_add] at h0 h7 h11
    rw [hmagic] at h0
    rw [ElfHeader.ofBytes, ElfHeader.mk.injEq]
    exact ⟨h0, h7, h11⟩
  have hsize : ¬ (words ((ws.drop 0).take 13)).length < ElfHeader.size := by
    rw [length_words, List.length_take, List.length_drop, ElfHeader.size]
    omega
  rw [ProgFile.elf, hread]
  dsimp only
  rw [if_neg hsize, hhdr, if_neg (not_not.mpr rfl)]

theorem header_ofWords {ws : List ℕ} (h : ws.length ≤ 17920) {i : ℕ} (hi : i + 8 ≤ ws.length) :
    (ofWords ws h).header (4 * i) = some ⟨ws.getD i 0 % 2 ^ 32, ws.getD (i + 1) 0 % 2 ^ 32,
      ws.getD (i + 2) 0 % 2 ^ 32, ws.getD (i + 4) 0 % 2 ^ 32, ws.getD (i + 5) 0 % 2 ^ 32⟩ := by
  have hread : (ofWords ws h).readi (4 * i) ProgHeader.size = some (words ((ws.drop i).take 8)) :=
    readi_ofWords h hi
  have hhdr : ∀ j < 8, uintAt (words ((ws.drop i).take 8)) (4 * j) =
      ws.getD (i + j) 0 % 2 ^ 32 := by
    intro j hj
    rw [uintAt_words, getD_part ws hj]
  have hsize : ¬ (words ((ws.drop i).take 8)).length ≠ ProgHeader.size := by
    rw [length_words, List.length_take, List.length_drop, ProgHeader.size]
    omega
  rw [ProgFile.header, hread]
  dsimp only
  rw [if_neg hsize, Option.some.injEq, ProgHeader.ofBytes, ProgHeader.mk.injEq]
  exact ⟨hhdr 0 (by norm_num), hhdr 1 (by norm_num), hhdr 2 (by norm_num), hhdr 4 (by norm_num),
    hhdr 5 (by norm_num)⟩

def oneByte (vaddr : ℕ) : ProgFile :=
  ofWords [ELF_MAGIC, 0, 0, 0, 0, 0, 0, 52, 0, 0, 0, 1, 0,
    ELF_PROG_LOAD, 0, vaddr, 0, 1, 1, 0, 0] (by norm_num)

theorem loadable_oneByte {vaddr n : ℕ} (h : vaddr < 4096) (hn : 67 ≤ n) :
    (oneByte vaddr).Loadable n ↔ vaddr = 0 := by
  have helf : (oneByte vaddr).elf = some ⟨ELF_MAGIC, 52, 1⟩ :=
    elf_ofWords (by norm_num) (by norm_num) rfl
  have hhdr : (oneByte vaddr).header 52 = some ⟨ELF_PROG_LOAD, 0, vaddr % 2 ^ 32, 1, 1⟩ :=
    header_ofWords (i := 13) (by norm_num) (by norm_num)
  rw [Nat.mod_eq_of_lt (by omega)] at hhdr
  rw [ProgFile.Loadable, helf]
  dsimp only
  rw [Scans, hhdr]
  dsimp only
  have halloc : Shape.alloc (n - 65) ⟨0, false⟩ ((vaddr + 1) % 2 ^ 32) =
      some ⟨vaddr + 1, false⟩ := by
    have hpages : pagesOf (vaddr + 1) = 1 := by
      rw [pagesOf, PGSIZE_eq]
      omega
    have hfit : fit (n - 65) 1 = .full := if_pos (by rw [need]; omega)
    rw [Nat.mod_eq_of_lt (by omega), Shape.alloc, if_neg (by rw [KERNBASE_eq]; omega),
      if_neg (by simp), hpages, if_neg (by decide), if_neg (by simp), hfit]
  rw [if_neg (by simp), if_neg (by simp), halloc]
  dsimp only
  have havail : (⟨ELF_PROG_LOAD, 0, vaddr, 1, 1⟩ : ProgHeader).avail (oneByte vaddr) = 1 := by
    rw [ProgHeader.avail, if_pos (Nat.zero_le _)]
    have hlen : (oneByte vaddr).bytes.length = 84 := length_words _
    rw [hlen]
    rfl
  constructor
  · rintro (hlt | ⟨⟨hal, -⟩, -⟩)
    · omega
    · rw [PGSIZE_eq, Nat.mod_eq_of_lt h] at hal
      exact hal
  · rintro rfl
    refine Or.inr ⟨⟨by decide, ?_, ?_⟩, fun _ => trivial⟩
    · intro i _ hi _
      have hi0 : i = 0 := by
        rw [PGSIZE_eq] at hi
        dsimp only at hi
        omega
      subst hi0
      decide
    · rw [havail]
      exact fun _ => le_rfl

/-- A segment at an address that is not a multiple of the page size. -/
theorem exec_unaligned : ∃ s d,
    Run.Reaches (Spaces.step Spaces.sampleImage)
      (Spaces.start Spaces.sampleImage fun _ => fill 0) s ∧
      s.dir (some 0) = some d ∧ ¬ Safe (exec Spaces.sampleImage d (oneByte 1) [] (s.mem, [])) := by
  obtain ⟨s, kpgdir, d, hreach, -, hd, hfree, hdense⟩ :=
    Spaces.exists_first (fun _ => fill 0) (p := 1) (by decide) (by decide)
  have hlen := hdense.free
  have hinv : Spaces.Inv Spaces.sampleImage s :=
    hreach.invariant (fun _ _ _ hs hc => hs.step hc) (Spaces.inv_start _ _)
  have hload : ¬ (oneByte 1).Loadable s.mem.free.length := by
    rw [loadable_oneByte (by norm_num) (by rw [need] at hlen; omega)]
    norm_num
  exact ⟨s, d, hreach, hd, fun hsafe =>
    hload (hsafe.loadable hinv.owns (hfree 1 (by norm_num)) hd)⟩

/-- A program at address 0 is loaded. -/
theorem exec_safe_first : ∃ s d,
    Run.Reaches (Spaces.step Spaces.sampleImage)
      (Spaces.start Spaces.sampleImage fun _ => fill 0) s ∧
      s.dir (some 0) = some d ∧ Safe (exec Spaces.sampleImage d (oneByte 0) [] (s.mem, [])) := by
  obtain ⟨s, kpgdir, d, hreach, -, hd, hfree, hdense⟩ :=
    Spaces.exists_first (fun _ => fill 0) (p := 1) (by decide) (by decide)
  have hlen := hdense.free
  have hinv : Spaces.Inv Spaces.sampleImage s :=
    hreach.invariant (fun _ _ _ hs hc => hs.step hc) (Spaces.inv_start _ _)
  have hload : (oneByte 0).Loadable s.mem.free.length := by
    rw [loadable_oneByte (by norm_num) (by rw [need] at hlen; omega)]
  exact ⟨s, d, hreach, hd, ((exec_safe_iff hinv.owns (hfree 1 (by norm_num)) hd _ _).mpr hload).1⟩

end Vm
end Xv6
