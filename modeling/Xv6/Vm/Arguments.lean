import Xv6.Vm.Apart
import Mathlib.Algebra.Order.BigOperators.Group.List

/-! The arguments that `exec` leaves on the stack of the new program. -/
namespace Xv6
namespace Vm
open Prog

def byteAt (s : Mem) (d a : ℕ) : UInt8 :=
  (s.page (pteAt s d (a / PGSIZE) / PGSIZE)).get (a % PGSIZE)

def bytesAt (s : Mem) (d a n : ℕ) : List UInt8 := (List.range n).map fun i => byteAt s d (a + i)

def userWord (s : Mem) (d a : ℕ) : ℕ := Bytes.bytesNat (bytesAt s d a 4)

def argPtr (s : Mem) (d sp i : ℕ) : ℕ := userWord s d (userWord s d (sp + 8) + 4 * i)

/-- The stack from `sp` up to `sz` holds the arguments of `main`, in the page above the guard
page. -/
structure ArgStack (t : Mem) (d sz sp : ℕ) (argv : List (List UInt8)) : Prop where
  aligned : sp % 4 = 0
  page : sz % PGSIZE = 0 ∧ 2 * PGSIZE ≤ sz ∧ sz ≤ sp + PGSIZE ∧ sp < sz
  stack : UserPte (pteAt t d (sz / PGSIZE - 1))
  guard : pteAt t d (sz / PGSIZE - 2) % 2 = 1 ∧ ¬UserPte (pteAt t d (sz / PGSIZE - 2))
  ret : userWord t d sp = 2 ^ 32 - 1
  argc : userWord t d (sp + 4) = argv.length
  above : sp + 12 ≤ userWord t d (sp + 8)
  ends : argPtr t d sp argv.length = 0
  strings : ∀ i < argv.length,
    userWord t d (sp + 8) + 4 * (argv.length + 1) ≤ argPtr t d sp i ∧
    argPtr t d sp i + (argv.getD i []).length + 1 ≤ sz ∧
    bytesAt t d (argPtr t d sp i) ((argv.getD i []).length + 1) = argv.getD i [] ++ [0]
  apart : ∀ i j, i < j → j < argv.length →
    argPtr t d sp j + (argv.getD j []).length + 1 ≤ argPtr t d sp i

def stringRoom (argv : List (List UInt8)) : ℕ := (argv.map fun a => (a.length + 1 + 3) / 4 * 4).sum

def argRoom (argv : List (List UInt8)) : ℕ := stringRoom argv + (argv.length + 4) * 4

/-- The first string, if there is one, is not too long for a page. -/
def FirstFits (argv : List (List UInt8)) : Prop := ∀ a ∈ argv.head?, a.length < PGSIZE

/-- A directory with a stack page `w` above the guard page; with a hole it is missing. -/
structure StackChart (c : ℕ → ℕ) (N : ℕ → Prop) (w : ℕ) (hole : Bool) : Prop where
  bounds : 1 ≤ w ∧ w < userPages
  user : ∀ u < 2 ^ 20, UserPte (c u) ↔ u + 1 < w ∨ (u = w ∧ hole = false)
  guard : c (w - 1) % 2 = 1
  table : ∀ u ≤ w, N u ↔ u = w ∧ hole = true
  device : ∀ u, 0xFE000 ≤ u → u < 2 ^ 20 → ¬N u

/-- Strings with their addresses, downwards in the page at `base` and not below `sp`. -/
structure Strings (p : Page) (base sp : ℕ) (qs : List (ℕ × List UInt8)) : Prop where
  inside : ∀ q ∈ qs, sp ≤ q.1 ∧ q.1 + q.2.length + 1 ≤ base + PGSIZE
  bytes : ∀ q ∈ qs, p.slice (q.1 - base) (q.2.length + 1) = q.2 ++ [0]
  apart : qs.Pairwise fun q q' => q'.1 + q'.2.length + 1 ≤ q.1

/-- The page at `base` holds the strings and below them `ustack`. -/
structure Laid (p : Page) (base sp : ℕ) (argv : List (List UInt8)) : Prop where
  aligned : sp % 4 = 0
  low : base ≤ sp
  top : sp + argRoom argv = base + PGSIZE
  strings : ∃ qs, qs.map Prod.snd = argv ∧ Strings p base (sp + (argv.length + 4) * 4) qs ∧
    p.slice (sp - base) ((argv.length + 4) * 4) =
      ustack (sp + (argv.length + 4) * 4) (qs.map Prod.fst)

section layout

variable {p : Page} {base sp va : ℕ} {qs : List (ℕ × List UInt8)} {a : List UInt8}
  {c : ℕ → ℕ} {N : ℕ → Prop} {w : ℕ} {hole : Bool}

theorem stringRoom_cons (a : List UInt8) (as : List (List UInt8)) :
    stringRoom (a :: as) = (a.length + 1 + 3) / 4 * 4 + stringRoom as := by
  rw [stringRoom, List.map_cons, List.sum_cons, stringRoom]

theorem stringRoom_mod (argv : List (List UInt8)) : stringRoom argv % 4 = 0 := by
  induction argv with
  | nil => rfl
  | cons a as ih =>
    rw [stringRoom_cons]
    omega

theorem Strings.write (h : Strings p base sp qs) (hbase : base ≤ va) {bytes : List UInt8}
    (hle : va + bytes.length ≤ sp) : Strings (p.write (va - base) bytes) base sp qs := by
  refine ⟨h.inside, fun q hq => ?_, h.apart⟩
  have hin := (h.inside q hq).1
  rw [Bytes.slice_write_disjoint (by omega), h.bytes q hq]

theorem Strings.push (h : Strings p base sp qs) (hbase : base ≤ va)
    (hle : va + (a.length + 1) ≤ sp) (hsp : sp ≤ base + PGSIZE) :
    Strings (p.write (va - base) (a ++ [0])) base va (qs ++ [(va, a)]) := by
  have hlen : (a ++ [0]).length = a.length + 1 := by rw [List.length_append, List.length_singleton]
  have hold := h.write hbase (show va + (a ++ [0]).length ≤ sp by omega)
  refine ⟨fun q hq => ?_, fun q hq => ?_, ?_⟩
  · rcases List.mem_append.mp hq with hq | hq
    · have hin := hold.inside q hq
      omega
    · rw [List.mem_singleton.mp hq]
      dsimp only
      omega
  · rcases List.mem_append.mp hq with hq | hq
    · exact hold.bytes q hq
    · rw [List.mem_singleton.mp hq]
      have hin : va - base + (a.length + 1) ≤ PGSIZE := by omega
      exact Bytes.slice_write_same hlen hin
  · refine List.pairwise_append.mpr ⟨h.apart, List.pairwise_singleton _ _, fun q hq q' hq' => ?_⟩
    rw [List.mem_singleton.mp hq']
    have hin := (h.inside q hq).1
    dsimp only
    omega

theorem length_ustack (sp : ℕ) (ps : List ℕ) : (ustack sp ps).length = (ps.length + 4) * 4 := by
  have hwords := length_words
    ([2 ^ 32 - 1, ps.length, sp + 2 ^ 32 - (ps.length + 1) * 4] ++ ps ++ [0])
  rw [List.length_append, List.length_append, List.length_singleton] at hwords
  rw [ustack]
  rw [words] at hwords
  rw [hwords, show [2 ^ 32 - 1, ps.length, sp + 2 ^ 32 - (ps.length + 1) * 4].length = 3 from rfl]
  omega

/-- A push that fits goes to the stack page, and one that does not comes to the guard page or to
the pages of the devices. -/
theorem StackChart.push (h : StackChart c N w hole) {len : ℕ} (hb : base = w * PGSIZE)
    (hlo : base ≤ sp) (hhi : sp ≤ base + PGSIZE) (h4 : sp % 4 = 0) (hpos : 0 < len)
    (hmax : len ≤ 2 ^ 24 + 2 ^ 12) (hva : va = (sp + 2 ^ 32 - len) % 2 ^ 32 / 4 * 4) :
    (base + len ≤ sp → va = sp - (len + 3) / 4 * 4 ∧ base ≤ va ∧ va + len ≤ sp ∧
      ∀ i < len, pageOf va i = w) ∧
    (sp < base + len → (∃ i < len, ¬UserPte (c (pageOf va i))) ∧ ¬FirstOut c N va len) := by
  subst hb
  obtain ⟨hw1, hw2⟩ := h.bounds
  rw [userPages_eq] at hw2
  have hguard : ¬UserPte (c (w - 1)) := by
    rw [h.user (w - 1) (by omega)]
    omega
  have hdown : len ≤ sp → va = (sp - len) / 4 * 4 := by
    intro hle
    rw [hva, Nat.add_comm, Nat.add_sub_assoc hle, Nat.add_mod_left, Nat.mod_eq_of_lt (by
      rw [PGSIZE_eq] at hhi
      omega)]
  rw [PGSIZE_eq] at *
  refine ⟨fun hfit => ?_, fun hout => ?_⟩
  · have hbase : w * 4096 ≤ (sp - len) / 4 * 4 := by
      have hquarter : w * 1024 * 4 ≤ sp - len := by omega
      calc w * 4096 = w * 1024 * 4 := by ring
        _ ≤ (sp - len) / 4 * 4 :=
          Nat.mul_le_mul_right 4 ((Nat.le_div_iff_mul_le (by norm_num)).mpr hquarter)
    rw [hdown (by omega)]
    refine ⟨by omega, hbase, by omega, fun i hi => ?_⟩
    rw [pageOf, PGSIZE_eq]
    omega
  · by_cases hwrap : len ≤ sp
    · rw [hdown hwrap]
      obtain ⟨v, hv⟩ : ∃ v, v = (sp - len) / 4 * 4 := ⟨_, rfl⟩
      have hpage : pageOf v ((w - 1) * 4096 - v) = w - 1 := by
        rw [pageOf, PGSIZE_eq]
        omega
      rw [← hv]
      refine ⟨⟨(w - 1) * 4096 - v, by omega, by rwa [hpage]⟩, ?_⟩
      rintro ⟨i, hi, hall, -, hN⟩
      have hle : pageOf v i ≤ w := by
        rw [pageOf, PGSIZE_eq]
        omega
      have hlast := ((h.table _ hle).mp hN).1
      refine hguard ?_
      rw [← hpage]
      refine hall _ ?_
      rw [pageOf, PGSIZE_eq] at hlast
      omega
    · have hdev : 0xFE000 ≤ pageOf va 0 ∧ pageOf va 0 < 2 ^ 20 := by
        rw [pageOf, PGSIZE_eq]
        omega
      have huser : ¬UserPte (c (pageOf va 0)) := by
        rw [h.user _ hdev.2]
        omega
      refine ⟨⟨0, hpos, huser⟩, ?_⟩
      rw [firstOut_of_out hpos huser]
      exact h.device _ hdev.1 hdev.2

end layout

section push

variable {ι κ : Type} {k : Image} {t : Mem} {D : ι → Option ℕ} {O : κ → Option ℕ} {x : ι}
  {base d sp w : ℕ} {c : ℕ → ℕ} {N : ℕ → Prop} {hole : Bool}

/-- A push goes through exactly if it fits, and without a stack page it meets no page table. -/
theorem StackChart.copyout (hs : StackChart c N w hole) (h : Charted k D O x d c N t) {va : ℕ}
    {bytes : List UInt8} (hb : base = w * PGSIZE) (hlo : base ≤ sp) (hhi : sp ≤ base + PGSIZE)
    (h4 : sp % 4 = 0) (hpos : 0 < bytes.length) (hmax : bytes.length ≤ 2 ^ 24 + 2 ^ 12)
    (hva : va = (sp + 2 ^ 32 - bytes.length) % 2 ^ 32 / 4 * 4) :
    wp (copyout k d va bytes) t
      (fun ok r => Charted k D O x d c N r ∧ (ok = false → sp < base + bytes.length) ∧
        (ok = true → base + bytes.length ≤ sp ∧ hole = false ∧
          r.page (c w / PGSIZE) = (t.page (c w / PGSIZE)).write (va - base) bytes))
      (fun e => e = "null pte" ∧ hole = true ∧ base + bytes.length ≤ sp) := by
  have hU := userPages_eq
  obtain ⟨hin, hout⟩ := hs.push hb hlo hhi h4 hpos hmax hva
  have hlt : va < 2 ^ 32 := by omega
  have huser := hs.user w (by have := hs.bounds; omega)
  refine wp_mono (copyout_copies h hlt bytes) ?_ ?_
  · rintro ok r ⟨hc, hch, hno⟩
    refine ⟨hch, fun hok => ?_, fun hok => ?_⟩
    · by_contra hfit
      obtain ⟨-, -, -, hpage⟩ := hin (by omega)
      have hwout : ¬UserPte (c w) := by
        intro hc'
        have hall := hc.ok_iff.mpr fun i hi => by rw [hpage i hi]; exact hc'
        rw [hok] at hall
        cases hall
      refine hno ⟨0, hpos, fun j hj => absurd hj (Nat.not_lt_zero j), ?_, ?_⟩
      · rw [hpage 0 hpos]
        exact hwout
      · rw [hpage 0 hpos, hs.table w le_rfl]
        rw [huser, not_or] at hwout
        exact ⟨rfl, by simpa using hwout.2⟩
    · have hall := hc.ok_iff.mp hok
      have hfit : base + bytes.length ≤ sp := by
        by_contra hno'
        obtain ⟨⟨i, hi, hbad⟩, -⟩ := hout (by omega)
        exact hbad (hall i hi)
      obtain ⟨-, hbase, hend, hpage⟩ := hin hfit
      have hw := hall 0 hpos
      rw [hpage 0 hpos, huser] at hw
      obtain ⟨m, -, -, hm, -, rfl⟩ := hc.stored
      have hoff : va = w * PGSIZE + (va - base) := by omega
      have hhole : hole = false := (hw.resolve_left (by omega)).2
      refine ⟨hfit, hhole, ?_⟩
      rw [hm hok, List.take_length, hoff, poke_page _ (by omega), ← hoff]
      exact Function.update_self ..
  · rintro e ⟨he, hfirst⟩
    have hfit : base + bytes.length ≤ sp := by
      by_contra hno
      exact (hout (by omega)).2 hfirst
    obtain ⟨-, -, -, hpage⟩ := hin hfit
    obtain ⟨i, hi, -, -, hN⟩ := hfirst
    rw [hpage i hi, hs.table w le_rfl] at hN
    exact ⟨he, hN.2, hfit⟩

theorem StackChart.pushStrings (hs : StackChart c N w hole) (h : Charted k D O x d c N t)
    {argv : List (List UInt8)} {argc : ℕ} {qs : List (ℕ × List UInt8)}
    (hargc : argc + argv.length ≤ MAXARG) (hb : base = w * PGSIZE) (hlo : base ≤ sp)
    (hhi : sp ≤ base + PGSIZE) (h4 : sp % 4 = 0) (hmax : ∀ a ∈ argv, a.length ≤ 2 ^ 24)
    (hstr : Strings (t.page (c w / PGSIZE)) base sp qs) :
    wp (pushStrings k d argv argc sp (qs.map Prod.fst)) t
      (fun r t' => Charted k D O x d c N t' ∧
        (r = none → sp < base + stringRoom argv ∧
          (hole = true → ¬∀ a ∈ argv.head?, base + (a.length + 1) ≤ sp)) ∧
        ∀ sp' ps, r = some (sp', ps) → sp' + stringRoom argv = sp ∧ base ≤ sp' ∧
          (argv ≠ [] → hole = false) ∧ ∃ qs', ps = qs'.map Prod.fst ∧
            qs'.map Prod.snd = qs.map Prod.snd ++ argv ∧
            Strings (t'.page (c w / PGSIZE)) base sp' qs')
      (fun e => e = "null pte" ∧ hole = true ∧ argv ≠ [] ∧
        ∀ a ∈ argv.head?, base + (a.length + 1) ≤ sp) := by
  induction argv generalizing t argc sp qs with
  | nil =>
    rw [Vm.pushStrings, wp_pure]
    refine ⟨h, by simp, ?_⟩
    rintro _ _ ⟨⟩
    exact ⟨rfl, hlo, by simp, qs, rfl, by rw [List.append_nil], hstr⟩
  | cons a as ih =>
    have hlen : (a ++ [0]).length = a.length + 1 := by
      rw [List.length_append, List.length_singleton]
    have halen := hmax a List.mem_cons_self
    rw [List.length_cons] at hargc
    obtain ⟨va, hva⟩ : ∃ va, va = (sp + 2 ^ 32 - (a.length + 1)) % 2 ^ 32 / 4 * 4 := ⟨_, rfl⟩
    have hva' : va = (sp + 2 ^ 32 - (a ++ [0]).length) % 2 ^ 32 / 4 * 4 := by
      rw [hlen]
      exact hva
    have hcopy := hs.copyout h hb hlo hhi h4 (by omega) (by omega) hva'
    rw [hlen] at hcopy
    rw [Vm.pushStrings, if_neg (by omega), ← hva]
    refine wp_seq (wp_mono hcopy (fun _ _ hq => hq) ?_) ?_
    · rintro e ⟨he, hh, hfit⟩
      refine ⟨he, hh, by simp, ?_⟩
      rintro b ⟨⟩
      exact hfit
    · rintro ok t1 ⟨h1, hfalse, htrue⟩
      cases ok with
      | false =>
        have hno := hfalse rfl
        rw [if_neg (by simp), wp_pure, stringRoom_cons]
        refine ⟨h1, fun _ => ⟨by omega, fun _ hall => ?_⟩, by simp⟩
        have := hall a rfl
        omega
      | true =>
        obtain ⟨hfit, hhole, hpage⟩ := htrue rfl
        obtain ⟨heq, hbase, hend, -⟩ :=
          (hs.push hb hlo hhi h4 (by omega) (by omega) hva).1 hfit
        have hmod : va % 4 = 0 := by omega
        have hstr1 : Strings (t1.page (c w / PGSIZE)) base va (qs ++ [(va, a)]) := by
          rw [hpage]
          exact hstr.push hbase hend hhi
        have hrec := ih h1 (show argc + 1 + as.length ≤ MAXARG by omega) hbase (by omega) hmod
          (fun b hb => hmax b (List.mem_cons_of_mem a hb)) hstr1
        rw [List.map_append, List.map_singleton] at hrec
        rw [if_pos rfl]
        refine wp_mono hrec ?_ ?_
        · rintro r t' ⟨h2, hnone, hsome⟩
          rw [stringRoom_cons]
          refine ⟨h2, fun hr => ⟨?_, fun hh => ?_⟩, fun sp' ps hr => ?_⟩
          · have := (hnone hr).1
            omega
          · rw [hhole] at hh
            cases hh
          · obtain ⟨hsp', hlo', -, qs', hps, hsnd, hstr'⟩ := hsome sp' ps hr
            refine ⟨by omega, hlo', fun _ => hhole, qs', hps, ?_, hstr'⟩
            rw [hsnd, List.map_append, List.append_assoc]
            rfl
        · rintro e ⟨-, hh, -⟩
          rw [hhole] at hh
          cases hh

/-- All arguments are laid out if they fit; where the stack page is missing it is met by the first
push that fits. -/
theorem StackChart.pushArgs (hs : StackChart c N w hole) (h : Charted k D O x d c N t)
    {argv : List (List UInt8)} (hb : base = w * PGSIZE) (hargc : argv.length < MAXARG)
    (hmax : ∀ a ∈ argv, a.length ≤ 2 ^ 24) :
    wp (pushArgs k d (base + PGSIZE) argv) t
      (fun r t' => Charted k D O x d c N t' ∧ ¬(hole = true ∧ FirstFits argv) ∧
        (PGSIZE < argRoom argv → r = none) ∧
        ∀ sp, r = some sp → hole = false ∧ Laid (t'.page (c w / PGSIZE)) base sp argv)
      (fun e => e = "null pte" ∧ hole = true ∧ FirstFits argv) := by
  have hM : MAXARG = 32 := rfl
  have hP := PGSIZE_eq
  have h4 : base % 4 = 0 := by
    rw [hb, hP]
    omega
  have hfirst : (∀ a ∈ argv.head?, base + (a.length + 1) ≤ base + PGSIZE) ↔ FirstFits argv := by
    refine forall₂_congr fun a _ => ?_
    omega
  have hstr : Strings (t.page (c w / PGSIZE)) base (base + PGSIZE) [] :=
    ⟨by simp, by simp, List.Pairwise.nil⟩
  have hpush := hs.pushStrings h (show 0 + argv.length ≤ MAXARG by omega) hb (Nat.le_add_right _ _)
    le_rfl (by omega) hmax hstr
  rw [hfirst] at hpush
  unfold Vm.pushArgs
  refine wp_seq (wp_mono hpush (fun _ _ hq => hq) fun e he => ⟨he.1, he.2.1, he.2.2.2⟩) ?_
  rintro r t1 ⟨h1, hnone, hsome⟩
  cases r with
  | none =>
    dsimp only
    rw [wp_pure]
    exact ⟨h1, fun hc => (hnone rfl).2 hc.1 hc.2, fun _ => rfl, by simp⟩
  | some q =>
    obtain ⟨sp, ps⟩ := q
    obtain ⟨hsp, hlo, hhole, qs, rfl, hsnd, hstr1⟩ := hsome sp ps rfl
    rw [List.map_nil, List.nil_append] at hsnd
    have hroom := stringRoom_mod argv
    have hlen : qs.length = argv.length := by rw [← hsnd, List.length_map]
    have hul : (ustack sp (qs.map Prod.fst)).length = (argv.length + 4) * 4 := by
      rw [length_ustack, List.length_map, hlen]
    obtain ⟨va, hva⟩ : ∃ va, va = (sp + 2 ^ 32 - (3 + (qs.map Prod.fst).length + 1) * 4) % 2 ^ 32 :=
      ⟨_, rfl⟩
    have hva' : va = (sp + 2 ^ 32 - (ustack sp (qs.map Prod.fst)).length) % 2 ^ 32 / 4 * 4 := by
      rw [hva, hul, List.length_map, hlen]
      omega
    have hcopy := hs.copyout h1 hb hlo (by omega) (by omega)
      (by omega) (by omega) hva'
    have hpushed := hs.push hb hlo (by omega) (by omega) (by omega) (by omega) hva'
    rw [hul] at hcopy hpushed
    dsimp only
    rw [← hva]
    have hempty : hole = true → argv = [] := by
      intro hh
      by_contra hne
      rw [hhole hne] at hh
      cases hh
    refine wp_seq (wp_mono hcopy (fun _ _ hq => hq) ?_) ?_
    · rintro e ⟨he, hh, -⟩
      refine ⟨he, hh, ?_⟩
      rw [hempty hh]
      rintro _ ⟨⟩
    · rintro ok t2 ⟨h2, hfalse, htrue⟩
      rw [wp_pure, argRoom]
      cases ok with
      | false =>
        have hno := hfalse rfl
        refine ⟨h2, fun hc => ?_, fun _ => rfl, by simp⟩
        have hnil := hempty hc.1
        rw [hnil, show stringRoom [] = 0 from rfl] at hsp
        rw [hnil, List.length_nil] at hno
        omega
      | true =>
        obtain ⟨hfit, hh, hpage⟩ := htrue rfl
        obtain ⟨heq, hbase, hend, -⟩ := hpushed.1 hfit
        have hsp' : va + (argv.length + 4) * 4 = sp := by omega
        refine ⟨h2, fun hc => ?_, fun hc => by omega, ?_⟩
        · rw [hh] at hc
          cases hc.1
        · rintro _ ⟨⟩
          refine ⟨hh, by omega, hbase, by rw [argRoom]; omega, qs, hsnd, ?_, ?_⟩
          · rw [hpage, hsp']
            exact hstr1.write hbase (by omega)
          · rw [hpage, hsp']
            exact Bytes.slice_write_same hul (by omega)

end push

section decode

variable {t : Mem} {d sp w : ℕ} {argv : List (List UInt8)}

theorem bytesAt_page {base a n : ℕ} (hb : base = w * PGSIZE) (hlo : base ≤ a)
    (hhi : a + n ≤ base + PGSIZE) :
    bytesAt t d a n = (t.page (pteAt t d w / PGSIZE)).slice (a - base) n := by
  refine List.map_congr_left fun i hi => ?_
  have hin := List.mem_range.mp hi
  have hdiv : (a + i) / PGSIZE = w := by
    rw [hb, PGSIZE_eq] at *
    omega
  have hmod : (a + i) % PGSIZE = a - base + i := by
    rw [hb, PGSIZE_eq] at *
    omega
  rw [byteAt, hdiv, hmod]

theorem getD_ustack {ps : List ℕ} {i : ℕ} (hi : i < ps.length) (w0 w1 w2 : ℕ) :
    ([w0, w1, w2] ++ ps ++ [0]).getD (3 + i) 0 = ps.getD i 0 := by
  rw [List.append_assoc, List.getD_append_right _ _ _ _ (by simp), List.getD_append _ _ _ _
    (by simpa)]
  simp

theorem Laid.argStack {base : ℕ} (h : Laid (t.page (pteAt t d w / PGSIZE)) base sp argv)
    (hb : base = w * PGSIZE) (hw : 1 ≤ w ∧ w < userPages) (hargc : argv.length < MAXARG)
    (huser : UserPte (pteAt t d w)) (hguard : pteAt t d (w - 1) % 2 = 1)
    (hguard' : ¬UserPte (pteAt t d (w - 1))) :
    ArgStack t d (base + PGSIZE) sp argv := by
  have hM : MAXARG = 32 := rfl
  have hP := PGSIZE_eq
  have hU := userPages_eq
  have hlow := h.low
  have htop := h.top
  obtain ⟨qs, hsnd, hstr, hust⟩ := h.strings
  have hlen : qs.length = argv.length := by rw [← hsnd, List.length_map]
  have hsmall : base + PGSIZE < 2 ^ 32 := by
    rw [hb, hP]
    omega
  have hdiv : (base + PGSIZE) / PGSIZE = w + 1 := by
    rw [hb, hP]
    omega
  rw [argRoom] at htop
  obtain ⟨ws, hws⟩ : ∃ ws, ws = [2 ^ 32 - 1, (qs.map Prod.fst).length,
    sp + (argv.length + 4) * 4 + 2 ^ 32 - ((qs.map Prod.fst).length + 1) * 4] ++
      qs.map Prod.fst ++ [0] :=
    ⟨_, rfl⟩
  have hword : ∀ i < argv.length + 4, userWord t d (sp + 4 * i) = ws.getD i 0 % 2 ^ 32 := by
    intro i hi
    have hpart := Bytes.slice_part (t.page (pteAt t d w / PGSIZE)) (sp - base)
      (show 4 * i + 4 ≤ (argv.length + 4) * 4 by omega)
    rw [hust] at hpart
    rw [userWord, bytesAt_page hb (by omega) (by omega), ← uintAt_words, uintAt,
      show sp + 4 * i - base = sp - base + 4 * i by omega, ← hpart, hws]
    rfl
  have h0 := hword 0 (by omega)
  have h1 := hword 1 (by omega)
  have h2 := hword 2 (by omega)
  have hA : userWord t d (sp + 8) = sp + 12 := by
    rw [show sp + 8 = sp + 4 * 2 from rfl, h2, hws]
    show (sp + (argv.length + 4) * 4 + 2 ^ 32 - ((qs.map Prod.fst).length + 1) * 4) % 2 ^ 32 =
      sp + 12
    rw [List.length_map, hlen]
    omega
  have hptr : ∀ i ≤ argv.length, argPtr t d sp i = ws.getD (3 + i) 0 % 2 ^ 32 := by
    intro i hi
    rw [argPtr, hA, show sp + 12 + 4 * i = sp + 4 * (3 + i) by omega, hword _ (by omega)]
  have hstring : ∀ i < argv.length, ∃ q, qs[i]? = some q ∧ q ∈ qs ∧ argv.getD i [] = q.2 ∧
      argPtr t d sp i = q.1 := by
    intro i hi
    have hi' : i < qs.length := by omega
    have hmem : qs[i] ∈ qs := List.getElem_mem hi'
    refine ⟨qs[i], List.getElem?_eq_getElem hi', hmem, ?_, ?_⟩
    · rw [← hsnd, List.getD_eq_getElem _ _ (by rw [List.length_map]; exact hi'), List.getElem_map]
    · have hin := (hstr.inside _ hmem).2
      rw [hptr i hi.le, hws, getD_ustack (by rw [List.length_map]; exact hi'),
        List.getD_eq_getElem _ _ (by rw [List.length_map]; exact hi'), List.getElem_map,
        Nat.mod_eq_of_lt (by omega)]
  refine ⟨h.aligned, ⟨by rw [hb, hP]; omega, by rw [hb, hP]; omega, by omega, by omega⟩, ?_, ?_, ?_,
    ?_, hA.ge, ?_, fun i hi => ?_, fun i j hij hj => ?_⟩
  · rwa [hdiv, Nat.add_sub_cancel]
  · rw [hdiv, show w + 1 - 2 = w - 1 by omega]
    exact ⟨hguard, hguard'⟩
  · rw [show sp = sp + 4 * 0 from rfl, h0, hws]
    rfl
  · rw [show sp + 4 = sp + 4 * 1 from rfl, h1, hws]
    show (qs.map Prod.fst).length % 2 ^ 32 = argv.length
    rw [List.length_map, hlen]
    omega
  · rw [hptr _ le_rfl, hws, List.getD_append_right _ _ _ _ (by simp [hlen]; omega)]
    simp [hlen]
  · obtain ⟨q, -, hmem, hq2, hq1⟩ := hstring i hi
    have hin := hstr.inside q hmem
    rw [hA, hq1, hq2]
    refine ⟨by omega, hin.2, ?_⟩
    rw [bytesAt_page hb (by omega) (by omega), hstr.bytes q hmem]
  · obtain ⟨q, hi', -, hq2, hq1⟩ := hstring i (hij.trans hj)
    obtain ⟨q', hj', -, hq2', hq1'⟩ := hstring j hj
    rw [hq1, hq1', hq2']
    obtain ⟨hil, rfl⟩ := List.getElem?_eq_some_iff.mp hi'
    obtain ⟨hjl, rfl⟩ := List.getElem?_eq_some_iff.mp hj'
    exact List.pairwise_iff_getElem.mp hstr.apart i j hil hjl hij

end decode

/-- The image with two more pages, the guard page and the stack. -/
def Shape.stack (n : ℕ) (st : Shape) : Option Shape :=
  if pagesOf st.sz * PGSIZE < KERNBASE then
    Shape.alloc n ⟨pagesOf st.sz * PGSIZE, st.hole⟩ ((pagesOf st.sz + 2) * PGSIZE)
  else none

/-- The image that `exec` makes of a file with `n` free pages, if it comes to the arguments. -/
def ProgFile.image (file : ProgFile) (n : ℕ) : Option Shape :=
  match file.elf with
  | none => none
  | some hdr =>
    if n < 65 then none
    else (scan (n - 65) file hdr.phnum hdr.phoff ⟨0, false⟩).bind (Shape.stack (n - 65))

/-- The segments are page aligned and end below `KERNBASE`. -/
def PlacedFrom (file : ProgFile) : ℕ → ℕ → Prop
  | 0, _ => True
  | c + 1, off =>
    (∀ ph, file.header off = some ph → ph.type = ELF_PROG_LOAD →
      ph.vaddr % PGSIZE = 0 ∧ ph.vaddr + ph.memsz < KERNBASE) ∧
    PlacedFrom file c ((off + ProgHeader.size) % 2 ^ 32)

def ProgFile.Placed (file : ProgFile) : Prop :=
  match file.elf with
  | none => True
  | some hdr => PlacedFrom file hdr.phnum hdr.phoff

theorem PlacedFrom.not_wraps {file : ProgFile} {c off : ℕ} (h : PlacedFrom file c off) :
    ¬Wraps file c off := by
  have hK := KERNBASE_eq
  induction c generalizing off with
  | zero => exact id
  | succ c ih =>
    rintro (⟨ph, hhdr, htype, hwrap⟩ | hrest)
    · have := (h.1 ph hhdr htype).2
      omega
    · exact ih h.2 hrest

section image

variable {ι κ : Type} [DecidableEq ι] [DecidableEq κ] {k : Image} {s t : Mem} {D : ι → Option ℕ}
  {O : κ → Option ℕ} {x y : ι} {d n old : ℕ} {st : Shape} {file : ProgFile}
  {argv : List (List UInt8)}

theorem clearU_closed (pte : ℕ) : clearU pte / PTE_U % 2 = 0 := by
  rw [clearU, PTE_U]
  split_ifs <;> omega

omit [DecidableEq ι] [DecidableEq κ] in
theorem Shaped.stackChart {w : ℕ} (h : Shaped k D O x d n st s) (hw : 1 ≤ w)
    (hsz : st.sz = w * PGSIZE + PGSIZE) (htab : ∀ i, i < 1024 → tableAt t d i = tableAt s d i)
    (hptes : ∀ u < 2 ^ 20, pteAt t d u = if u = w - 1 then clearU (pteAt s d u) else pteAt s d u) :
    StackChart (pteAt t d) (fun u => tableAt t d (u / NPTENTRIES) = none) w st.hole := by
  have hU := userPages_eq
  have hK := KERNBASE_eq
  have hN : NPTENTRIES = 1024 := rfl
  have hbound := h.bound
  have hwU : w < userPages := by
    rw [hsz, PGSIZE_eq] at hbound
    omega
  have hpagesOf : pagesOf st.sz = w + 1 := by
    rw [hsz, pagesOf, PGSIZE_eq]
    omega
  have hpages : st.pages = if st.hole then w else w + 1 := by
    rw [Shape.pages, hpagesOf, Nat.add_sub_cancel]
  have hshort : st.hole = true → w % 1024 = 0 := by
    intro hh
    have := (h.short hh).2
    omega
  have htable : ∀ u < 2 ^ 20, tableAt t d (u / NPTENTRIES) = none ↔ ¬st.HasTable u := by
    intro u hu
    rw [h.hasTable hu, htab _ (by rw [hN]; omega), not_not]
  refine ⟨⟨hw, hwU⟩, fun u hu => ?_, ?_, fun u hu => ?_, fun u h1 h2 => ?_⟩
  · rw [hptes u hu]
    by_cases hlow : u < st.pages
    · obtain ⟨f, hf⟩ := h.dense.mapped u hlow
      by_cases hg : u = w - 1
      · rw [if_pos hg]
        refine iff_of_false (fun hc => ?_) (by omega)
        have := hc.2
        rw [clearU_closed] at this
        cases this
      · rw [if_neg hg, hf]
        refine iff_of_true ⟨entry_odd, entry_user f⟩ ?_
        cases hh : st.hole with
        | true =>
          rw [hpages, hh, if_pos rfl] at hlow
          exact Or.inl (by omega)
        | false =>
          rw [hpages, hh, if_neg (by simp)] at hlow
          by_cases huw : u = w
          · exact Or.inr ⟨huw, rfl⟩
          · exact Or.inl (by omega)
    · have hne : ¬u = w - 1 := by
        rw [hpages] at hlow
        split_ifs at hlow <;> omega
      rw [if_neg hne]
      refine iff_of_false ?_ ?_
      · rintro ⟨h1, h2⟩
        by_cases hlt : u < userPages
        · have := h.dense.absent u (by omega) hlt
          omega
        · rw [h.dense.kernel u (by omega) hu, kernelPte_closed] at h2
          cases h2
      · rintro (hc | ⟨hc, hh⟩)
        · rw [hpages] at hlow
          split_ifs at hlow <;> omega
        · rw [hpages, hh, if_neg (by simp)] at hlow
          omega
  · obtain ⟨f, hf⟩ := h.dense.mapped (w - 1) (by rw [hpages]; split_ifs <;> omega)
    rw [hptes (w - 1) (by omega), if_pos rfl, clearU_odd, hf]
    exact entry_odd
  · rw [htable u (by omega), Shape.HasTable, if_pos (by omega), hpages]
    cases hh : st.hole with
    | true =>
      have := hshort hh
      rw [if_pos rfl, and_iff_left rfl]
      omega
    | false =>
      rw [if_neg (by simp)]
      refine iff_of_false ?_ (by simp)
      omega
  · rw [htable u h2, Shape.HasTable, if_neg (by omega), not_not, kernelTables, Finset.mem_union,
      Finset.mem_Ico, Finset.mem_Ico]
    omega

theorem Shaped.makeStack (h : Shaped k D O x d n st t) {Q : Option (ℕ × ℕ) → Mem → Prop}
    {E : String → Prop} (hno : st.stack n = none → ∀ t', Owns k t' D O → Q none t')
    (hgo : ∀ st' t' c N w, st.stack n = some st' → st'.sz = w * PGSIZE + PGSIZE →
      StackChart c N w st'.hole → (∀ u < 2 ^ 20, N u ↔ ¬st'.HasTable u) → Charted k D O x d c N t' →
      wp (pushArgs k d st'.sz argv) t' (fun r t3 => Q (r.map (Prod.mk st'.sz)) t3) E) :
    wp (makeStack k d st.sz argv) t Q E := by
  have hbound := h.bound
  have hK := KERNBASE_eq
  have hU := userPages_eq
  have hmax := pagesOf_le_userPages hbound.le
  have hmod : (pagesOf st.sz * PGSIZE + 2 * PGSIZE) % 2 ^ 32 = (pagesOf st.sz + 2) * PGSIZE := by
    rw [PGSIZE_eq]
    omega
  unfold Vm.makeStack
  rw [PGROUNDUP_eq hbound.le, hmod]
  by_cases hlt : pagesOf st.sz * PGSIZE < KERNBASE
  · have hstack : st.stack n =
        Shape.alloc n ⟨pagesOf st.sz * PGSIZE, st.hole⟩ ((pagesOf st.sz + 2) * PGSIZE) := if_pos hlt
    refine wp_seq (wp_mono ((h.roundUp hlt).allocuvm _) (fun _ _ hq => hq) fun _ hf => hf.elim) ?_
    intro sz t1 h1
    cases halloc : Shape.alloc n ⟨pagesOf st.sz * PGSIZE, st.hole⟩
      ((pagesOf st.sz + 2) * PGSIZE) with
    | none =>
      rw [halloc] at h1
      rw [if_pos h1.1, wp_pure]
      exact hno (hstack.trans halloc) t1 h1.2
    | some st' =>
      rw [halloc] at h1
      obtain ⟨rfl, hne, h2⟩ := h1
      rw [if_neg hne]
      obtain ⟨hsz, hnew⟩ := Shape.alloc_sz halloc
      have hsz' : st'.sz = (pagesOf st.sz + 1) * PGSIZE + PGSIZE := by
        simp only [PGSIZE_eq] at hsz ⊢
        omega
      have huva : (st'.sz + 2 ^ 32 - 2 * PGSIZE) % 2 ^ 32 = pagesOf st.sz * PGSIZE := by
        rw [hsz', PGSIZE_eq]
        omega
      have hdiv : pagesOf st.sz * PGSIZE / PGSIZE = pagesOf st.sz :=
        Nat.mul_div_cancel _ (by decide)
      have hguard : pagesOf st.sz < userPages ∧
          tableAt t1 d (pagesOf st.sz / NPTENTRIES) ≠ none := by
        have hlow : pagesOf st.sz < userPages := by
          rw [PGSIZE_eq] at hlt
          omega
        refine ⟨hlow, ?_⟩
        have htwo : pagesOf st'.sz = pagesOf st.sz + 2 := by
          rw [hsz', pagesOf, PGSIZE_eq]
          omega
        rw [← h2.hasTable (by omega), Shape.HasTable, if_pos hlow, Shape.pages, htwo]
        split_ifs <;> omega
      rw [huva]
      have hclear := clearpteu_spec h2.dense.owns h2.dense.dir
        (show pagesOf st.sz < 2 ^ 20 by omega)
        hdiv
      refine wp_seq (wp_mono hclear (fun _ _ hq => hq) fun _ he => absurd he.2 hguard.2) ?_
      rintro _ t2 ⟨howns, hspine, -, hptes⟩
      have hptes' : ∀ u < 2 ^ 20, pteAt t2 d u =
          if u = pagesOf st.sz + 1 - 1 then clearU (pteAt t1 d u) else pteAt t1 d u := by
        intro u hu
        rw [hptes x d u h2.dense.dir hu, Nat.add_sub_cancel]
        simp only [true_and]
      have htab : ∀ i < 1024, tableAt t2 d i = tableAt t1 d i :=
        fun i hi => tableAt_of_spine (funext hspine) h2.dense.dir hi
      have hN : NPTENTRIES = 1024 := rfl
      have hchart := h2.stackChart (Nat.le_add_left 1 (pagesOf st.sz)) hsz' htab hptes'
      have htables : ∀ u < 2 ^ 20, tableAt t2 d (u / NPTENTRIES) = none ↔ ¬st'.HasTable u := by
        intro u hu
        rw [h2.hasTable hu, htab _ (by rw [hN]; omega), not_not]
      have hheld : Held k D O x d t2 := by
        refine ⟨h2.dense.dir, howns, fun u hu1 hu2 => ?_⟩
        rw [hptes' u hu2, if_neg (by omega), h2.dense.kernel u hu1 hu2]
      refine wp_seq (hgo st' t2 _ _ _ (hstack.trans halloc) hsz' hchart htables hheld.charted) ?_
      intro r t3 hr
      cases r with
      | none =>
        dsimp only
        rw [wp_pure]
        exact hr
      | some sp =>
        dsimp only
        rw [wp_pure]
        exact hr
  · have hge : (pagesOf st.sz + 2) * PGSIZE ≥ KERNBASE := by
      rw [PGSIZE_eq] at *
      omega
    rw [Vm.allocuvm, if_pos hge, wp_bind, wp_pure, if_pos rfl, wp_pure]
    exact hno (if_neg hlt) t h.dense.owns

/-- The arguments are in the last page of an image of size `sz`, above a guard page. -/
def Stacked (d : ℕ) (argv : List (List UInt8)) (sz sp : ℕ) (t : Mem) : Prop :=
  ∃ w, sz = w * PGSIZE + PGSIZE ∧ (1 ≤ w ∧ w < userPages) ∧ UserPte (pteAt t d w) ∧
    pteAt t d (w - 1) % 2 = 1 ∧ ¬UserPte (pteAt t d (w - 1)) ∧
    Laid (t.page (pteAt t d w / PGSIZE)) (w * PGSIZE) sp argv

omit [DecidableEq ι] in
theorem Stacked.same {sz sp : ℕ} (h : Stacked d argv sz sp s) (hsame : SameUser D y s t)
    (hx : D x = some d) (hxy : x ≠ y) : Stacked d argv sz sp t := by
  have hU := userPages_eq
  obtain ⟨w, hsz, hw, huser, hguard, hout, hlaid⟩ := h
  have hpage := hsame.pages x d w _ hxy hx hw.2 (if_pos huser.1)
  refine ⟨w, hsz, hw, ?_⟩
  rw [hsame.ptes x d w hxy hx (by omega), hsame.ptes x d (w - 1) hxy hx (by omega), hpage]
  exact ⟨huser, hguard, hout, hlaid⟩

theorem makeImage_stacked {hdr : ElfHeader} (h : Shaped k D O x d n ⟨0, false⟩ t)
    (hscan : Scans n file hdr.phnum hdr.phoff ⟨0, false⟩) (hargc : argv.length < MAXARG)
    (hmax : ∀ a ∈ argv, a.length ≤ 2 ^ 24) :
    wp (makeImage k file hdr d argv) (t, [])
      (fun r t' =>
        (¬∃ st, (scan n file hdr.phnum hdr.phoff ⟨0, false⟩).bind (Shape.stack n) = some st ∧
          st.hole = true ∧ FirstFits argv) ∧ Owns k t'.1 D O ∧
        (PGSIZE < argRoom argv → r = none) ∧ ∀ sz sp, r = some (sz, sp) → Stacked d argv sz sp t'.1)
      (fun e => e.1 = "null pte" ∧
        ∃ st, (scan n file hdr.phnum hdr.phoff ⟨0, false⟩).bind (Shape.stack n) = some st ∧
          st.hole = true ∧ FirstFits argv) := by
  have hU := userPages_eq
  unfold makeImage
  refine wp_seq (wp_mono (loadSegments_spec h) (fun _ _ hq => hq) fun _ he => absurd hscan he.1) ?_
  rintro r ⟨t1, log⟩ (⟨-, hbuilt, -, hscanned⟩ | ⟨hno, -⟩)
  · rw [hscanned.size]
    cases hst : scan n file hdr.phnum hdr.phoff ⟨0, false⟩ with
    | none =>
      rw [Option.map_none]
      dsimp only
      rw [wp_pure]
      exact ⟨by simp, hbuilt.owns, fun _ => rfl, by simp⟩
    | some st =>
      have hshaped := hscanned.shaped st hst
      rw [Option.map_some]
      dsimp only
      rw [wp_beside, Option.bind_some]
      refine hshaped.makeStack ?_ ?_
      · intro hnone t' howns
        refine ⟨?_, howns, fun _ => rfl, by simp⟩
        rintro ⟨st', hst', -⟩
        rw [hnone] at hst'
        cases hst'
      · intro st' t' c N w hst' hsz hchart _ hch
        rw [hst', hsz]
        have hone : (∃ st₁, some st' = some st₁ ∧ st₁.hole = true ∧ FirstFits argv) ↔
            st'.hole = true ∧ FirstFits argv := by simp
        rw [hone]
        refine wp_mono (hchart.pushArgs hch rfl hargc hmax) ?_ fun _ he => he
        rintro r t3 ⟨hch3, hnull, hrefused, hlaid⟩
        refine ⟨hnull, hch3.owns, fun hc => by rw [hrefused hc]; rfl, ?_⟩
        intro sz sp hr
        cases r with
        | none => cases hr
        | some sp' =>
          cases hr
          obtain ⟨hhole, hl⟩ := hlaid sp rfl
          have hw := hchart.bounds
          refine ⟨w, rfl, hw, ?_⟩
          rw [hch3.ptes w (by omega), hch3.ptes (w - 1) (by omega)]
          refine ⟨(hchart.user w (by omega)).mpr (Or.inr ⟨rfl, hhole⟩), hchart.guard, ?_, hl⟩
          rw [hchart.user (w - 1) (by omega)]
          omega
  · exact absurd hscan hno

/-- `exec` of a file comes to a stack page that is missing. -/
def ProgFile.MeetsHole (file : ProgFile) (n : ℕ) (argv : List (List UInt8)) : Prop :=
  ∃ st, file.image n = some st ∧ st.hole = true ∧ FirstFits argv

/-- A new image has its arguments on its stack, and arguments that do not fit make `exec` fail. -/
structure Decodable (argv : List (List UInt8)) (r : Option (ℕ × ℕ × ℕ)) (t : Mem) : Prop where
  made : ∀ d sz sp, r = some (d, sz, sp) → ArgStack t d sz sp argv
  refused : PGSIZE < argRoom argv → r = none

theorem exec_decodable (h : Owns k s D O) (hx : D x = none) (hy : D y = some old)
    (hload : file.Loadable s.free.length) (hargc : argv.length < MAXARG)
    (hmax : ∀ a ∈ argv, a.length ≤ 2 ^ 24) :
    wp (exec k old file argv) (s, [])
      (fun r t => ¬file.MeetsHole s.free.length argv ∧ Decodable argv r t.1)
      (fun e => e.1 = "null pte" ∧ file.MeetsHole s.free.length argv) := by
  rw [exec_eq]
  unfold ProgFile.Loadable at hload
  unfold ProgFile.MeetsHole ProgFile.image
  cases hhdr : file.elf with
  | none =>
    dsimp only
    rw [wp_pure]
    exact ⟨by simp, by simp, fun _ => rfl⟩
  | some hdr =>
    rw [hhdr] at hload
    dsimp only at hload ⊢
    rw [wp_bind, wp_beside]
    refine wp_mono (setupkvm_spec (x := x) h hx) ?_ (fun _ hf => hf.elim)
    rintro r t ⟨-, hnone, hsome⟩
    cases r with
    | none =>
      dsimp only
      rw [wp_pure, if_pos (hnone rfl).2.2]
      exact ⟨by simp, by simp, fun _ => rfl⟩
    | some d =>
      obtain ⟨hset, hlen⟩ := hsome d rfl
      have hlen' : s.free.length - 65 = t.free.length := by omega
      have hxy : y ≠ x := by
        rintro rfl
        rw [hx] at hy
        cases hy
      rw [hlen'] at hload ⊢
      rw [if_neg (by omega)]
      have hscan := hload.resolve_left (by omega)
      dsimp only
      refine wp_seq (makeImage_stacked hset.shaped hscan hargc hmax) ?_
      rintro r ⟨t1, log⟩ ⟨hnull, howns, hrefused, hstacked⟩
      have hself : Function.update D x (some d) x = some d := Function.update_self ..
      cases r with
      | none =>
        dsimp only
        rw [wp_bind, wp_beside]
        refine wp_mono (freevm_spec howns hself) ?_ (fun _ hf => hf.elim)
        intro _ t2 _
        rw [wp_pure]
        exact ⟨hnull, by simp, fun _ => rfl⟩
      | some p =>
        obtain ⟨sz, sp⟩ := p
        have hy' : Function.update D x (some d) y = some old := by
          rw [Function.update_of_ne hxy, hy]
        dsimp only
        rw [wp_bind, wp_beside]
        refine wp_mono (freevm_apart howns hy') ?_ (fun _ hf => hf.elim)
        rintro _ t2 ⟨hsame, -⟩
        rw [wp_pure]
        refine ⟨hnull, ?_, fun hc => ?_⟩
        · rintro _ _ _ ⟨⟩
          obtain ⟨w, rfl, hw, huser, hguard, hout, hlaid⟩ :=
            (hstacked sz sp rfl).same hsame hself hxy.symm
          exact hlaid.argStack rfl hw hargc huser hguard hout
        · cases hrefused hc

theorem ProgFile.Placed.not_wrapping (h : file.Placed) : ¬file.Wrapping := by
  unfold ProgFile.Placed at h
  unfold ProgFile.Wrapping
  cases hhdr : file.elf with
  | none => exact id
  | some hdr =>
    rw [hhdr] at h
    exact PlacedFrom.not_wraps h

/-- A file that is not loadable for want of pages makes `exec` panic. -/
theorem exec_panics (h : Owns k s D O) (hx : D x = none) (hy : D y = some old)
    (hfile : file.Placed) (hload : ¬file.Loadable s.free.length) (argv : List (List UInt8)) :
    wp (exec k old file argv) (s, []) (fun _ _ => False) (fun e => e.1 ∈ walkPanics) := by
  refine wp_mono (exec_spec h hx hy file argv) ?_ ?_
  · rintro r t (⟨hl, -⟩ | ⟨-, hwrap, -⟩)
    · exact hload hl
    · exact hfile.not_wrapping hwrap
  · rintro e (⟨hl, -⟩ | ⟨-, hmsg | ⟨hwrap, -⟩⟩)
    · exact absurd hl hload
    · exact hmsg
    · exact absurd hwrap hfile.not_wrapping

/-- The arguments are on the stack of every new image, exactly if the last free page is not taken
for the stack with no page left for its page table, and no panic comes before arguments that do
not fit. -/
theorem exec_args_iff (h : Owns k s D O) (hx : D x = none) (hy : D y = some old)
    (hfile : file.Placed) (hargc : argv.length < MAXARG)
    (hmax : (argv.map List.length).sum ≤ 2 ^ 24) :
    wp (exec k old file argv) (s, []) (fun r t => Decodable argv r t.1)
      (fun e => e.1 ≠ "null pte" ∧ argRoom argv ≤ PGSIZE) ↔
    ¬(file.Loadable s.free.length ∧ file.MeetsHole s.free.length argv) ∧
      (PGSIZE < argRoom argv → file.Loadable s.free.length) := by
  by_cases hload : file.Loadable s.free.length
  · have hlong : ∀ a ∈ argv, a.length ≤ 2 ^ 24 := fun a ha =>
      (List.le_sum_of_mem (List.mem_map_of_mem ha)).trans hmax
    have hspec := exec_decodable h hx hy hload hargc hlong
    constructor
    · intro hall
      refine ⟨fun hmeets => ?_, fun _ => hload⟩
      cases hrun : exec k old file argv (s, []) with
      | ok r t =>
        rw [wp_of_eq hrun] at hspec
        exact hspec.1 hmeets.2
      | stop e =>
        rw [wp_of_stop hrun] at hspec hall
        exact hall.1 hspec.1
    · rintro ⟨hno, -⟩
      exact wp_mono hspec (fun _ _ hq => hq.2) fun e he => absurd ⟨hload, he.2⟩ hno
  · have hspec := exec_panics h hx hy hfile hload argv
    constructor
    · intro hall
      refine ⟨fun hmeets => hload hmeets.1, fun hroom => ?_⟩
      cases hrun : exec k old file argv (s, []) with
      | ok r t =>
        rw [wp_of_eq hrun] at hspec
        exact hspec.elim
      | stop e =>
        rw [wp_of_stop hrun] at hall
        exact absurd hall.2 hroom.not_ge
    · rintro ⟨-, hroom⟩
      refine wp_mono hspec (fun _ _ hq => hq.elim) fun e he =>
        ⟨?_, not_lt.mp fun hc => hload (hroom hc)⟩
      intro hnull
      rw [hnull] at he
      revert he
      decide

end image

/-- A program of one segment at address 0, all of it zero. -/
def bss (memsz : ℕ) : ProgFile :=
  ofWords [ELF_MAGIC, 0, 0, 0, 0, 0, 0, 52, 0, 0, 0, 1, 0, ELF_PROG_LOAD, 0, 0, 0, 0, memsz, 0, 0]
    (by norm_num)

section bss

variable {memsz n : ℕ}

theorem bss_elf (memsz : ℕ) : (bss memsz).elf = some ⟨ELF_MAGIC, 52, 1⟩ :=
  elf_ofWords (by norm_num) (by norm_num) rfl

theorem bss_header (h : memsz < 2 ^ 32) :
    (bss memsz).header 52 = some ⟨ELF_PROG_LOAD, 0, 0, 0, memsz⟩ := by
  have hhdr : (bss memsz).header 52 = some ⟨ELF_PROG_LOAD, 0, 0, 0, memsz % 2 ^ 32⟩ :=
    header_ofWords (i := 13) (by norm_num) (by norm_num)
  rwa [Nat.mod_eq_of_lt h] at hhdr

theorem bss_placed (h : memsz < KERNBASE) : (bss memsz).Placed := by
  have hK := KERNBASE_eq
  rw [ProgFile.Placed, bss_elf]
  refine ⟨fun ph hhdr _ => ?_, trivial⟩
  rw [bss_header (by omega)] at hhdr
  cases hhdr
  exact ⟨rfl, by dsimp only; omega⟩

theorem bss_loadable (h : memsz < KERNBASE) : (bss memsz).Loadable n := by
  have hK := KERNBASE_eq
  have havail : (⟨ELF_PROG_LOAD, 0, 0, 0, memsz⟩ : ProgHeader).avail (bss memsz) = 0 :=
    Nat.le_zero.mp ProgHeader.avail_le
  rw [ProgFile.Loadable, bss_elf]
  dsimp only
  rw [Scans, bss_header (by omega)]
  dsimp only
  rw [if_neg (by simp), if_neg (Nat.not_lt_zero _)]
  right
  cases Shape.alloc (n - 65) ⟨0, false⟩ ((0 + memsz) % 2 ^ 32) with
  | none => trivial
  | some st =>
    refine ⟨⟨rfl, fun i _ hi => absurd hi (Nat.not_lt_zero _), fun hlt => ?_⟩, fun _ => trivial⟩
    rw [havail] at hlt
    exact absurd hlt (Nat.not_lt_zero _)

theorem bss_image {p : ℕ} (hp : 0 < p) (hlt : p * PGSIZE < KERNBASE) (hn : 65 + need p ≤ n) :
    (bss (p * PGSIZE)).image n = Shape.stack (n - 65) ⟨p * PGSIZE, false⟩ := by
  have hK := KERNBASE_eq
  have hpages : pagesOf (p * PGSIZE) = p := by
    rw [pagesOf, PGSIZE_eq]
    omega
  have hfit : fit (n - 65) p = .full := if_pos (by omega)
  have halloc : Shape.alloc (n - 65) ⟨0, false⟩ (p * PGSIZE) = some ⟨p * PGSIZE, false⟩ := by
    rw [Shape.alloc, if_neg (by omega), if_neg (Nat.not_lt_zero _), hpages,
      if_neg (by rw [show pagesOf 0 = 0 from rfl]; omega), if_neg (by simp), hfit]
  rw [ProgFile.image, bss_elf]
  dsimp only
  rw [if_neg (by omega), scan, bss_header (by omega)]
  dsimp only
  rw [if_neg (by simp), if_neg (Nat.not_lt_zero _), Nat.zero_add, Nat.mod_eq_of_lt (by omega),
    halloc]
  dsimp only
  rw [if_pos (Nat.le_zero.mp ProgHeader.avail_le), scan, Option.bind_some]

end bss

theorem stack_of_fit {n p : ℕ} {b : Bool} (hlt : (p + 2) * PGSIZE < KERNBASE)
    (hfit : fit n (p + 2) = if b then .hole else .full) :
    Shape.stack n ⟨p * PGSIZE, false⟩ = some ⟨(p + 2) * PGSIZE, b⟩ := by
  have hpages : ∀ q, pagesOf (q * PGSIZE) = q := by
    intro q
    rw [pagesOf, PGSIZE_eq]
    omega
  have hle : p * PGSIZE ≤ (p + 2) * PGSIZE := Nat.mul_le_mul_right _ (by omega)
  rw [Shape.stack, hpages, if_pos (by omega), Shape.alloc, if_neg (by omega),
    if_neg hle.not_gt, hpages,
    hpages, if_neg (by omega), if_neg (by simp), hfit]
  cases b with
  | true => rfl
  | false => rfl

theorem bss_page_image {n : ℕ} (hn : 69 ≤ n) :
    (bss PGSIZE).image n = some ⟨3 * PGSIZE, false⟩ := by
  have himage := bss_image (p := 1) (n := n) one_pos (by decide) (by rw [need]; omega)
  rwa [stack_of_fit (b := false) (by decide) (if_pos (by rw [need]; omega)), Nat.one_mul] at himage

/-- `exec` of a program of one page, with one argument. -/
theorem exec_args_hi : ∃ s d,
    Run.Reaches (Spaces.step Spaces.sampleImage)
      (Spaces.start Spaces.sampleImage fun _ => fill 0) s ∧
      s.dir (some 0) = some d ∧
      wp (exec Spaces.sampleImage d (bss PGSIZE) [[104, 105]]) (s.mem, [])
        (fun r t => Decodable [[104, 105]] r t.1)
        (fun e => e.1 ≠ "null pte" ∧ argRoom [[104, 105]] ≤ PGSIZE) := by
  obtain ⟨s, kpgdir, d, hreach, -, hd, hfree, hdense⟩ :=
    Spaces.exists_first (fun _ => fill 0) (p := 1) (by decide) (by decide)
  have hlen := hdense.free
  refine ⟨s, d, hreach, hd, (exec_args_iff hdense.owns (hfree 1 (by norm_num)) hd
    (bss_placed (by decide)) (by decide) (by decide)).mpr ⟨?_, fun _ => bss_loadable (by decide)⟩⟩
  rintro ⟨-, st, himage, hhole, -⟩
  rw [bss_page_image (by rw [need] at hlen; omega)] at himage
  cases himage
  cases hhole

/-- With 1091 free pages the last one is taken for the stack, and there is no page left for its
page table. -/
theorem exec_null_pte : ∃ s,
    Owns Spaces.sampleImage s (fun y : Bool => if y then some 1024 else none)
      (fun _ : Unit => none) ∧
      ¬wp (exec Spaces.sampleImage 1024 (bss (1023 * PGSIZE)) [[104, 105]]) (s, [])
        (fun r t => Decodable [[104, 105]] r t.1)
        (fun e => e.1 ≠ "null pte" ∧ argRoom [[104, 105]] ≤ PGSIZE) := by
  have howns : Owns Spaces.sampleImage (blank (List.range' 1025 1091))
      (fun y : Bool => if y then some 1024 else none) (fun _ : Unit => none) := by
    refine owns_blank (x := true) (d := 1024) ?_ (fun _ => rfl) ?_ ?_
    · intro y e he
      cases y with
      | true => exact ⟨rfl, (Option.some.inj he).symm⟩
      | false => cases he
    · exact List.nodup_range' (s := 1024) (n := 1092)
    · intro f hf
      have hmem : f ∈ List.range' 1024 1092 := hf
      rw [List.mem_range'_1] at hmem
      refine (Image.pool_iff _).mpr ?_
      rw [show Spaces.sampleImage.firstFrame = 0x115 by decide]
      omega
  have hlen : (blank (List.range' 1025 1091)).free.length = 1091 := List.length_range'
  refine ⟨_, howns, fun hall => ?_⟩
  have hspec := exec_decodable howns (x := false) rfl (y := true) rfl
    (bss_loadable (show 1023 * PGSIZE < KERNBASE by decide))
    (show ([[104, 105]] : List (List UInt8)).length < MAXARG by decide) (by decide)
  have hmeets : (bss (1023 * PGSIZE)).MeetsHole (blank (List.range' 1025 1091)).free.length
      [[104, 105]] := by
    refine ⟨⟨1025 * PGSIZE, true⟩, ?_, rfl, ?_⟩
    · rw [hlen, bss_image (by decide) (by decide) (by decide)]
      exact stack_of_fit (by decide) rfl
    · rintro _ ⟨⟩
      decide
  cases hrun : exec Spaces.sampleImage 1024 (bss (1023 * PGSIZE)) [[104, 105]]
      (blank (List.range' 1025 1091), []) with
  | ok r t =>
    rw [wp_of_eq hrun] at hspec
    exact hspec.1 hmeets
  | stop e =>
    rw [wp_of_stop hrun] at hspec hall
    exact hall.1 hspec.1

end Vm
end Xv6
