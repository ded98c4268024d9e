import Xv6.Vm.Removed
import Xv6.Vm.Safe

/-! What `copyout` stores, and where. -/
namespace Xv6
namespace Vm
open Prog

/-- A page-table entry that is present and the user's. -/
def UserPte (pte : ℕ) : Prop := pte % 2 = 1 ∧ pte / PTE_U % 2 = 1

def pageOf (va i : ℕ) : ℕ := (va + i) % 2 ^ 32 / PGSIZE

/-- The bytes stored one after the other from the address `a` on, through the entries `c`. -/
def poke (c : ℕ → ℕ) : ℕ → List UInt8 → Mem → Mem
  | _, [], s => s
  | a, b :: bs, s => poke c (a + 1) bs (s.setPage (c (a / PGSIZE) / PGSIZE)
      ((s.page (c (a / PGSIZE) / PGSIZE)).write (a % PGSIZE) [b]))

/-- All bytes were stored if they lie on pages of the user, else those up to the end of a page. -/
structure CopiedOut (c : ℕ → ℕ) (va : ℕ) (bytes : List UInt8) (s : Mem) (ok : Bool) (t : Mem) :
    Prop where
  ok_iff : ok = true ↔ ∀ i < bytes.length, UserPte (c (pageOf va i))
  stored : ∃ m ≤ bytes.length, (∀ i < m, UserPte (c (pageOf va i))) ∧
    (ok = true → m = bytes.length) ∧ (ok = false → m = 0 ∨ (va + m) % PGSIZE = 0) ∧
    t = poke c va (bytes.take m) s

/-- The first page of the range that is not the user's is one of `N`. -/
def FirstOut (c : ℕ → ℕ) (N : ℕ → Prop) (va len : ℕ) : Prop :=
  ∃ i < len, (∀ j < i, UserPte (c (pageOf va j))) ∧ ¬UserPte (c (pageOf va i)) ∧ N (pageOf va i)

/-- The directory `d` with its entries `c` and the pages `N` that have no page table. -/
structure Charted {ι κ : Type} (k : Image) (D : ι → Option ℕ) (O : κ → Option ℕ) (x : ι) (d : ℕ)
    (c : ℕ → ℕ) (N : ℕ → Prop) (t : Mem) : Prop extends Held k D O x d t where
  ptes : ∀ u < 2 ^ 20, pteAt t d u = c u
  tables : ∀ u < 2 ^ 20, tableAt t d (u / NPTENTRIES) = none ↔ N u

section poke

variable {c : ℕ → ℕ} {N : ℕ → Prop} {s t : Mem} {ok : Bool} {bytes : List UInt8} {va n : ℕ}

theorem pageOf_add (va n i : ℕ) : pageOf (va + n) i = pageOf va (n + i) := by
  rw [pageOf, pageOf, Nat.add_assoc]

theorem poke_append (l l' : List UInt8) (a : ℕ) (s : Mem) :
    poke c a (l ++ l') s = poke c (a + l.length) l' (poke c a l s) := by
  induction l generalizing a s with
  | nil => rfl
  | cons b l ih =>
    rw [List.cons_append, poke, ih, poke, List.length_cons, Nat.add_assoc, Nat.add_comm 1]

theorem setPage_setPage (s : Mem) (f : ℕ) (p q : Page) :
    (s.setPage f p).setPage f q = s.setPage f q := by
  rw [Mem.setPage, Mem.setPage, Mem.setPage, Function.update_idem]

theorem poke_page (l : List UInt8) {u off : ℕ} (h : off + l.length ≤ PGSIZE) (s : Mem) :
    poke c (u * PGSIZE + off) l s =
      s.setPage (c u / PGSIZE) ((s.page (c u / PGSIZE)).write off l) := by
  induction l generalizing off s with
  | nil => rw [poke, Bytes.write_nil, Mem.setPage, Function.update_eq_self]
  | cons b l ih =>
    rw [List.length_cons] at h
    have hdiv : (u * PGSIZE + off) / PGSIZE = u := by
      rw [PGSIZE_eq] at *
      omega
    have hmod : (u * PGSIZE + off) % PGSIZE = off := by
      rw [PGSIZE_eq] at *
      omega
    have hself : (s.setPage (c u / PGSIZE) ((s.page (c u / PGSIZE)).write off [b])).page
        (c u / PGSIZE) = (s.page (c u / PGSIZE)).write off [b] := Function.update_self ..
    rw [poke, hdiv, hmod, Nat.add_assoc, ih (by omega), hself, setPage_setPage, Bytes.write_cons]

/-- A part of the range, up to the end of a page or of the range, and the rest of it. -/
theorem CopiedOut.cons (hn : n ≤ bytes.length) (hP : ∀ i < n, UserPte (c (pageOf va i)))
    (h : CopiedOut c (va + n) (bytes.drop n) (poke c va (bytes.take n) s) ok t)
    (hend : n = bytes.length ∨ (va + n) % PGSIZE = 0) : CopiedOut c va bytes s ok t := by
  obtain ⟨m, hm, hPm, htrue, hfalse, rfl⟩ := h.stored
  rw [List.length_drop] at hm htrue
  refine ⟨?_, n + m, by omega, ?_, fun hok => by rw [htrue hok]; omega, ?_, ?_⟩
  · rw [h.ok_iff, List.length_drop]
    refine ⟨fun hall i hi => ?_, fun hall i hi => ?_⟩
    · by_cases hin : i < n
      · exact hP i hin
      · have hrest := hall (i - n) (by omega)
        rwa [pageOf_add, Nat.add_sub_cancel' (by omega)] at hrest
    · rw [pageOf_add]
      exact hall (n + i) (by omega)
  · intro i hi
    by_cases hin : i < n
    · exact hP i hin
    · have hrest := hPm (i - n) (by omega)
      rwa [pageOf_add, Nat.add_sub_cancel' (by omega)] at hrest
  · intro hok
    rcases hfalse hok with rfl | hmod
    · rcases hend with hlen | hmod
      · have hall := h.ok_iff.mpr fun i hi => by
          rw [List.length_drop] at hi
          omega
        rw [hok] at hall
        cases hall
      · exact Or.inr hmod
    · exact Or.inr (by rw [← Nat.add_assoc]; exact hmod)
  · have hlen : (bytes.take n).length = n := List.length_take_of_le hn
    rw [List.take_add, poke_append, hlen]

theorem CopiedOut.nil (c : ℕ → ℕ) (va : ℕ) (s : Mem) : CopiedOut c va [] s true s :=
  ⟨by simp, 0, le_rfl, by simp, fun _ => rfl, fun _ => Or.inl rfl, rfl⟩

theorem CopiedOut.refused (hpos : 0 < bytes.length) (hout : ¬UserPte (c (pageOf va 0))) (s : Mem) :
    CopiedOut c va bytes s false s :=
  ⟨iff_of_false (by simp) fun hall => hout (hall 0 hpos), 0, Nat.zero_le _, by simp, by simp,
    fun _ => Or.inl rfl, rfl⟩

theorem not_firstOut_zero (c : ℕ → ℕ) (N : ℕ → Prop) (va : ℕ) : ¬FirstOut c N va 0 := by
  rintro ⟨i, hi, -⟩
  exact absurd hi (Nat.not_lt_zero i)

theorem firstOut_of_out {len : ℕ} (hpos : 0 < len) (hout : ¬UserPte (c (pageOf va 0))) :
    FirstOut c N va len ↔ N (pageOf va 0) := by
  constructor
  · rintro ⟨i, hi, hall, -, hN⟩
    cases i with
    | zero => exact hN
    | succ i => exact absurd (hall 0 (Nat.succ_pos i)) hout
  · intro hN
    exact ⟨0, hpos, fun j hj => absurd hj (Nat.not_lt_zero j), hout, hN⟩

theorem firstOut_add (hP : ∀ i < n, UserPte (c (pageOf va i))) (len : ℕ) :
    FirstOut c N (va + n) (len - n) ↔ FirstOut c N va len := by
  constructor
  · rintro ⟨i, hi, hall, hno, hN⟩
    rw [pageOf_add] at hno hN
    refine ⟨n + i, by omega, fun j hj => ?_, hno, hN⟩
    by_cases hjn : j < n
    · exact hP j hjn
    · have hrest := hall (j - n) (by omega)
      rwa [pageOf_add, Nat.add_sub_cancel' (by omega)] at hrest
  · rintro ⟨i, hi, hall, hno, hN⟩
    have hni : n ≤ i := by
      by_contra hlt
      exact hno (hP i (by omega))
    obtain ⟨j, rfl⟩ := Nat.exists_eq_add_of_le hni
    refine ⟨j, by omega, fun l hl => ?_, ?_, ?_⟩
    · rw [pageOf_add]
      exact hall (n + l) (by omega)
    · rwa [pageOf_add]
    · rwa [pageOf_add]

end poke

section copyout

variable {ι κ : Type} {k : Image} {t : Mem} {D : ι → Option ℕ} {O : κ → Option ℕ} {x : ι}
  {d u va : ℕ} {c : ℕ → ℕ} {N : ℕ → Prop}

theorem Held.charted (h : Held k D O x d t) :
    Charted k D O x d (pteAt t d) (fun u => tableAt t d (u / NPTENTRIES) = none) t :=
  ⟨h, fun _ _ => rfl, fun _ _ => Iff.rfl⟩

theorem Charted.user_lt (h : Charted k D O x d c N t) (hu : u < 2 ^ 20) (huser : UserPte (c u)) :
    u < userPages := by
  by_contra hge
  have hclosed := kernelPte_closed k u
  have hbit := huser.2
  rw [← h.ptes u hu, h.kernel u (by omega) hu, hclosed] at hbit
  cases hbit

theorem Charted.owned_user (h : Charted k D O x d c N t) (hu : u < 2 ^ 20) (huser : UserPte (c u)) :
    owned t D O (.user x u) = some (c u / PGSIZE) := by
  rw [Vm.owned_user h.dir (h.user_lt hu huser), h.ptes u hu]
  exact if_pos huser.1

theorem Charted.setPage (h : Charted k D O x d c N t) (hu : u < 2 ^ 20) (huser : UserPte (c u))
    (p : Page) : Charted k D O x d c N (t.setPage (c u / PGSIZE) p) := by
  have hspine : ∀ z, spine t D z ≠ some (c u / PGSIZE) := by
    refine h.owns.not_spine_of_user h.dir (h.user_lt hu huser) ?_
    rw [h.ptes u hu]
    exact if_pos huser.1
  have hsame := samePtes_setPage hspine p x d
  refine ⟨⟨h.dir, h.owns.setPage hspine p, ?_⟩, ?_, ?_⟩
  · intro v h1 h2
    rw [hsame v h.dir h2, h.kernel v h1 h2]
  · intro v hv
    rw [hsame v h.dir hv, h.ptes v hv]
  · intro v hv
    have hne : d ≠ c u / PGSIZE := fun hdf => hspine (.dir x) (hdf ▸ h.dir)
    rw [tableAt_congr (word_setPage_of_ne hne p _), h.tables v hv]

theorem Charted.storeBytes (h : Charted k D O x d c N t) (hu : u < 2 ^ 20) (huser : UserPte (c u))
    {off : ℕ} {bytes : List UInt8} (hne : bytes ≠ []) (hlen : off + bytes.length ≤ PGSIZE) :
    wp (storeBytes k (c u / PGSIZE) off bytes) t
      (fun _ r => r = poke c (u * PGSIZE + off) bytes t ∧ Charted k D O x d c N r)
      (fun _ => False) := by
  have hpool := h.owns.held _ _ (h.owned_user hu huser)
  rw [Vm.storeBytes, if_neg hne, if_pos hpool.not_text, wp_modify]
  exact ⟨(poke_page bytes hlen t).symm, h.setPage hu huser _⟩

theorem Charted.uva2ka (h : Charted k D O x d c N t) (hu : u < 2 ^ 20) :
    wp (uva2ka d (u * PGSIZE)) t
      (fun r t' => t' = t ∧ ¬N u ∧
        (UserPte (c u) ∧ r = some (c u / PGSIZE) ∨ ¬UserPte (c u) ∧ r = none))
      (fun e => e = "null pte" ∧ N u ∧ ¬UserPte (c u)) := by
  rw [Vm.uva2ka, wp_bind, walkpgdir_find, PDX_page hu, PTX_page]
  cases ht : tableAt t d (u / NPTENTRIES) with
  | none =>
    rw [Option.map_none]
    dsimp only
    rw [wp_panic]
    refine ⟨rfl, (h.tables u hu).mp ht, ?_⟩
    intro huser
    have hodd := huser.1
    rw [← h.ptes u hu, pteAt, ht] at hodd
    cases hodd
  | some g =>
    have hN : ¬N u := by
      rw [← h.tables u hu, ht]
      simp
    rw [Option.map_some]
    dsimp only
    rw [wp_bind, wp_wordAt, wp_pure, ← pteAt_of_table ht, h.ptes u hu]
    refine ⟨rfl, hN, ?_⟩
    by_cases hodd : c u % 2 = 0
    · rw [if_pos hodd]
      refine Or.inr ⟨fun huser => ?_, rfl⟩
      have := huser.1
      omega
    · rw [if_neg hodd]
      by_cases hbit : c u / PTE_U % 2 = 0
      · rw [if_pos hbit]
        refine Or.inr ⟨fun huser => ?_, rfl⟩
        have := huser.2
        omega
      · rw [if_neg hbit]
        exact Or.inl ⟨⟨by omega, by omega⟩, rfl⟩

theorem firstPart {u off len : ℕ} (hu : u < userPages) (hoff : off < PGSIZE) (hlen : 0 < len) :
    ∃ n, 0 < n ∧ n ≤ len ∧ off + n ≤ PGSIZE ∧ n = min (PGSIZE - off) len ∧
      (∀ i < n, pageOf (u * PGSIZE + off) i = u) ∧
      (n = len ∨ u * PGSIZE + off + n = (u * PGSIZE + PGSIZE) % 2 ^ 32 ∧
        (u * PGSIZE + off + n) % PGSIZE = 0) := by
  rw [userPages_eq] at hu
  rw [PGSIZE_eq] at *
  refine ⟨min (4096 - off) len, by omega, by omega, by omega, rfl, fun i hi => ?_, by omega⟩
  rw [pageOf, PGSIZE_eq]
  omega

theorem copyoutFrom_copies {fuel : ℕ} {bytes : List UInt8} (h : Charted k D O x d c N t)
    (hva : va < 2 ^ 32) (hfuel : bytes.length < fuel) :
    wp (copyoutFrom k d fuel va bytes) t
      (fun ok r => CopiedOut c va bytes t ok r ∧ Charted k D O x d c N r ∧
        ¬FirstOut c N va bytes.length)
      (fun e => e = "null pte" ∧ FirstOut c N va bytes.length) := by
  induction fuel generalizing t va bytes with
  | zero => omega
  | succ fuel ih =>
    rw [copyoutFrom]
    by_cases hnil : bytes = []
    · subst hnil
      rw [if_pos rfl, wp_pure]
      exact ⟨.nil c va t, h, not_firstOut_zero c N va⟩
    · have hpos : 0 < bytes.length := List.length_pos_iff.mpr hnil
      obtain ⟨u, off, rfl, hoff⟩ : ∃ u off, va = u * PGSIZE + off ∧ off < PGSIZE :=
        ⟨va / PGSIZE, va % PGSIZE, (Nat.div_add_mod' va PGSIZE).symm, Nat.mod_lt _ (by decide)⟩
      have hdiv : (u * PGSIZE + off) / PGSIZE = u := by
        rw [PGSIZE_eq] at *
        omega
      have hu : u < 2 ^ 20 := by
        rw [PGSIZE_eq] at hva
        omega
      have hpage : pageOf (u * PGSIZE + off) 0 = u := by
        rw [pageOf, Nat.add_zero, Nat.mod_eq_of_lt hva, hdiv]
      rw [if_neg hnil, PGROUNDDOWN, hdiv, Nat.add_sub_cancel_left]
      refine wp_seq (wp_mono (h.uva2ka hu) (fun _ _ hq => hq) ?_) ?_
      · rintro e ⟨he, hN, hout⟩
        rw [← hpage] at hN hout
        exact ⟨he, (firstOut_of_out hpos hout).mpr hN⟩
      · rintro r t0 ⟨ht0, hN, ⟨huser, rfl⟩ | ⟨hout, rfl⟩⟩
        · subst ht0
          obtain ⟨n, hn0, hnle, hnoff, hne, hpages, hnext⟩ :=
            firstPart (h.user_lt hu huser) hoff hpos
          have hlen : (bytes.take n).length = n := List.length_take_of_le hnle
          have hall : ∀ i < n, UserPte (c (pageOf (u * PGSIZE + off) i)) := by
            intro i hi
            rwa [hpages i hi]
          have htake : bytes.take (PGSIZE - off) = bytes.take n := by
            rw [hne, List.take_eq_take_min]
          have hdrop : bytes.drop (PGSIZE - off) = bytes.drop n := by
            rcases Nat.le_total (PGSIZE - off) bytes.length with hle | hle
            · rw [hne, Nat.min_eq_left hle]
            · rw [hne, Nat.min_eq_right hle, List.drop_length, List.drop_of_length_le hle]
          have hne' : bytes.take n ≠ [] := fun hc => by
            rw [hc] at hlen
            exact hn0.ne hlen
          dsimp only
          rw [htake, hdrop]
          refine wp_seq (wp_mono (h.storeBytes hu huser hne' (by omega)) (fun _ _ hq => hq)
            fun _ hf => hf.elim) ?_
          rintro _ t' ⟨rfl, ht'⟩
          rcases hnext with heq | ⟨heq, hmod⟩
          · have hdone : bytes.drop n = [] := by rw [heq, List.drop_length]
            have hsub : bytes.length - n = 0 := by omega
            have hrest : copyoutFrom k d fuel ((u * PGSIZE + PGSIZE) % 2 ^ 32) [] = pure true := by
              cases fuel with
              | zero => rw [copyoutFrom]
              | succ fuel => rw [copyoutFrom, if_pos rfl]
            rw [hdone, hrest, wp_pure]
            refine ⟨CopiedOut.cons hnle hall ?_ (Or.inl heq), ht', ?_⟩
            · rw [hdone]
              exact .nil c _ _
            · rw [← firstOut_add hall, hsub]
              exact not_firstOut_zero c N _
          · have hlt := Nat.mod_lt (u * PGSIZE + PGSIZE) (Nat.two_pow_pos 32)
            rw [← heq] at hlt ⊢
            have hrec := ih ht' hlt
              (show (bytes.drop n).length < fuel by rw [List.length_drop]; omega)
            rw [List.length_drop] at hrec
            refine wp_mono hrec ?_ ?_
            · rintro ok r' ⟨hc, hch, hno⟩
              exact ⟨hc.cons hnle hall (Or.inr hmod), hch,
                fun hc => hno ((firstOut_add hall _).mpr hc)⟩
            · rintro e ⟨he, hout⟩
              exact ⟨he, (firstOut_add hall _).mp hout⟩
        · subst ht0
          dsimp only
          rw [wp_pure]
          rw [← hpage] at hout hN
          exact ⟨.refused hpos hout t0, h, fun hc => hN ((firstOut_of_out hpos hout).mp hc)⟩

theorem copyout_copies (h : Charted k D O x d c N t) (hva : va < 2 ^ 32) (bytes : List UInt8) :
    wp (copyout k d va bytes) t
      (fun ok r => CopiedOut c va bytes t ok r ∧ Charted k D O x d c N r ∧
        ¬FirstOut c N va bytes.length)
      (fun e => e = "null pte" ∧ FirstOut c N va bytes.length) :=
  copyoutFrom_copies h hva (Nat.lt_succ_self bytes.length)

/-- `copyout` stores the bytes on pages of the user or gives up before the first page that is not
one, exactly if this page has a page table. -/
theorem copyout_to_user_iff (h : Held k D O x d t) (hva : va < 2 ^ 32) (bytes : List UInt8) :
    wp (copyout k d va bytes) t (CopiedOut (pteAt t d) va bytes t) (fun _ => False) ↔
      ¬FirstOut (pteAt t d) (fun u => tableAt t d (u / NPTENTRIES) = none) va bytes.length := by
  have hspec := copyout_copies h.charted hva bytes
  constructor
  · intro hall
    obtain ⟨-, -, -, -, -, hno⟩ := exists_of_wp (wp_and hall hspec)
    exact hno
  · intro hno
    exact wp_mono hspec (fun _ _ hq => hq.1) fun e he => hno he.2

end copyout

theorem exists_setUp : ∃ t d, 15 ≤ t.free.length ∧
    SetUp Spaces.sampleImage (fun _ : Unit => none) (fun _ : Unit => none) () d t := by
  have howns : Owns Spaces.sampleImage (blank (List.range' 1025 80)) (fun _ : Unit => none)
      (fun _ : Unit => none) :=
    owns_blank (x := ()) (d := 1024) (fun _ _ he => by cases he) (fun _ => rfl) (by decide)
      (by decide)
  obtain ⟨r, t, -, hnone, hsome⟩ := exists_of_wp (setupkvm_spec (x := ()) howns rfl)
  have hfree : (blank (List.range' 1025 80)).free.length = 80 := List.length_range'
  cases r with
  | none =>
    have hlt := (hnone rfl).2.2
    omega
  | some d =>
    obtain ⟨hset, hlen⟩ := hsome d rfl
    exact ⟨t, d, by omega, hset⟩

/-- A byte for the first page of a process. -/
theorem copyout_to_user_first : ∃ t d, UserPte (pteAt t d 0) ∧
    wp (copyout Spaces.sampleImage d 0 [7]) t (CopiedOut (pteAt t d) 0 [7] t) (fun _ => False) := by
  obtain ⟨s, d, hlen, hset⟩ := exists_setUp
  have halloc : Shape.alloc s.free.length ⟨0, false⟩ 4096 = some ⟨4096, false⟩ := by
    have hfit : fit s.free.length 1 = .full := if_pos (le_trans (by decide) hlen)
    rw [Shape.alloc, if_neg (by decide), if_neg (by decide), if_neg (by decide), if_neg (by simp),
      show pagesOf 4096 = 1 from rfl, hfit]
  obtain ⟨sz, t, hpost⟩ := exists_of_wp (hset.shaped.allocuvm 4096)
  rw [halloc] at hpost
  obtain ⟨-, -, hshaped⟩ := hpost
  obtain ⟨f, hf⟩ := hshaped.dense.mapped 0 (by decide)
  have huser : UserPte (pteAt t d 0) := by
    rw [hf]
    exact ⟨entry_odd, entry_user f⟩
  refine ⟨t, d, huser, (copyout_to_user_iff hshaped.held (by decide) _).mpr ?_⟩
  rintro ⟨i, hi, -, hout, -⟩
  have hi0 : i = 0 := Nat.lt_one_iff.mp hi
  rw [hi0] at hout
  exact hout huser

/-- Where a directory has no page table. -/
theorem copyout_null_pte : ∃ t d,
    Held Spaces.sampleImage (Function.update (fun _ => none) () (some d))
      (fun _ : Unit => none) () d
        t ∧
      ¬wp (copyout Spaces.sampleImage d 0 [7]) t (CopiedOut (pteAt t d) 0 [7] t)
        (fun _ => False) := by
  obtain ⟨t, d, -, hset⟩ := exists_setUp
  have hheld := hset.shaped.held
  refine ⟨t, d, hheld, fun hall => ?_⟩
  have hspec := copyout_copies hheld.charted (show 0 < 2 ^ 32 by decide) [7]
  obtain ⟨-, -, -, -, -, hno⟩ := exists_of_wp (wp_and hall hspec)
  have hnone : tableAt t d 0 = none := by
    by_contra hc
    have hmem := (hset.tables 0 (by decide)).mp hc
    rw [kernelTables, Finset.mem_union, Finset.mem_Ico, Finset.mem_Ico] at hmem
    omega
  refine hno ((firstOut_of_out (by decide) ?_).mpr hnone)
  rintro ⟨hodd, -⟩
  rw [show pageOf 0 0 = 0 from rfl, hset.ptes 0 (by decide), kernelPte_user (by decide)] at hodd
  cases hodd

end Vm
end Xv6
