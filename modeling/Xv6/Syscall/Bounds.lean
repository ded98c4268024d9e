import Xv6.Syscall.Args

/-! System-call arguments keep the kernel inside the memory of the process, but for a
negative length passed to `sys_read`. -/
namespace Xv6
namespace Args
open Touching

section copies

variable {sz p n : ℕ}

theorem mem_block {a : ℕ} : a ∈ block p n ↔ ∃ i < n, (p + i) % 2 ^ 32 = a := by
  simp [block]

theorem block_below (hsz : sz < 2 ^ 32) (h : p + n ≤ sz) : ∀ a ∈ block p n, a < sz := by
  intro a ha
  obtain ⟨i, hi, rfl⟩ := mem_block.mp ha
  omega

theorem mem_copyLoop {fuel off a : ℕ} (hfuel : n ≤ fuel) :
    a ∈ copyLoop fuel p off n ↔ a ∈ block p n := by
  induction fuel generalizing p off n with
  | zero =>
    obtain rfl : n = 0 := by omega
    simp [copyLoop, block]
  | succ fuel ih =>
    rw [copyLoop]
    by_cases hn : n > 0
    · have hmod : off % BSIZE < BSIZE := Nat.mod_lt off (by decide)
      rw [if_pos hn, List.mem_append, ih (by omega), mem_block, mem_block, mem_block]
      constructor
      · rintro (⟨i, hi, rfl⟩ | ⟨i, hi, rfl⟩)
        · exact ⟨i, by omega, rfl⟩
        · exact ⟨min n (BSIZE - off % BSIZE) + i, by omega, by rw [Nat.add_assoc]⟩
      · rintro ⟨i, hi, rfl⟩
        by_cases him : i < min n (BSIZE - off % BSIZE)
        · exact Or.inl ⟨i, him, rfl⟩
        · refine Or.inr ⟨i - min n (BSIZE - off % BSIZE), by omega, ?_⟩
          congr 1
          omega
    · obtain rfl : n = 0 := by omega
      simp [block]

theorem mem_piperead {addr avail i a : ℕ} {n : ℤ} (h : a ∈ piperead addr n avail i) :
    ∃ k : ℕ, k < n ∧ (addr + k) % 2 ^ 32 = a := by
  induction avail generalizing i with
  | zero => exact absurd h List.not_mem_nil
  | succ avail ih =>
    rw [piperead] at h
    split_ifs at h with hi
    · rcases List.mem_cons.mp h with rfl | h
      · exact ⟨i, hi, rfl⟩
      · exact ih h
    · exact absurd h List.not_mem_nil

theorem mem_pipewrite {addr room i a : ℕ} {n : ℤ} (h : a ∈ pipewrite addr n room i) :
    ∃ k : ℕ, k < n ∧ (addr + k) % 2 ^ 32 = a := by
  induction room generalizing i with
  | zero => exact absurd h List.not_mem_nil
  | succ room ih =>
    rw [pipewrite] at h
    split_ifs at h with hi
    · rcases List.mem_cons.mp h with rfl | h
      · exact ⟨i, hi, rfl⟩
      · exact ih h
    · exact absurd h List.not_mem_nil

theorem mem_consoleread {dst a : ℕ} {n : ℤ} {input : List UInt8}
    (h : a ∈ consoleread dst n input) : ∃ k : ℕ, k < n ∧ (dst + k) % 2 ^ 32 = a := by
  induction input generalizing dst n with
  | nil => exact absurd h List.not_mem_nil
  | cons c input ih =>
    rw [consoleread] at h
    split_ifs at h with hn hc hnl
    · exact absurd h List.not_mem_nil
    · obtain rfl := List.mem_singleton.mp h
      exact ⟨0, hn, rfl⟩
    · rcases List.mem_cons.mp h with rfl | h
      · exact ⟨0, hn, rfl⟩
      · obtain ⟨k, hk, rfl⟩ := ih h
        exact ⟨k + 1, by push_cast; omega, by rw [Nat.add_assoc, Nat.add_comm 1]⟩
    · exact absurd h List.not_mem_nil

end copies

section accessors

variable {c : Caller}

theorem fetchint_within (hsz : c.sz < KERNBASE) (addr : ℕ) :
    Within (· < c.sz) (fetchint c addr) := by
  have hk : KERNBASE = 2 ^ 31 := rfl
  unfold fetchint
  split_ifs with h
  · exact within_fail
  · rw [within_bind, within_touch]
    refine ⟨block_below (by omega) (by omega), fun _ _ => within_pure _⟩

theorem load_lt (mem : ℕ → UInt8) (p : ℕ) : load mem p 4 < 2 ^ 32 := by
  have h := Bytes.bytesNat_lt ((block p 4).map mem)
  have hlen : ((block p 4).map mem).length = 4 := by simp [block]
  rw [hlen] at h
  exact h

theorem fetchint_lt {addr w : ℕ} (h : (fetchint c addr).result = some w) : w < 2 ^ 32 := by
  unfold fetchint at h
  split_ifs at h
  · simp at h
  · rw [result_bind] at h
    obtain ⟨_, -, h⟩ := h
    obtain rfl := Option.some.inj h
    exact load_lt c.mem addr

theorem argint_within (hsz : c.sz < KERNBASE) (n : ℕ) : Within (· < c.sz) (argint c n) :=
  fetchint_within hsz _

theorem argint_lt {n w : ℕ} (h : (argint c n).result = some w) : w < 2 ^ 32 := fetchint_lt h

theorem fetchstrFrom_spec {p fuel s : ℕ} (hps : p ≤ s) :
    Within (· < c.sz) (fetchstrFrom c p fuel s) ∧
      ∀ len, (fetchstrFrom c p fuel s).result = some len → p + len < c.sz := by
  induction fuel generalizing s with
  | zero => exact ⟨within_fail, fun len h => by simp [fetchstrFrom] at h⟩
  | succ fuel ih =>
    rw [fetchstrFrom]
    split_ifs with hs hz
    · constructor
      · rw [within_bind, within_touch]
        refine ⟨by simpa using hs, fun _ _ => within_pure _⟩
      · intro len h
        rw [result_bind] at h
        obtain ⟨_, -, h⟩ := h
        obtain rfl := Option.some.inj h
        omega
    · obtain ⟨hin, hlen⟩ := ih (s := s + 1) (by omega)
      constructor
      · rw [within_bind, within_touch]
        exact ⟨by simpa using hs, fun _ _ => hin⟩
      · intro len h
        rw [result_bind] at h
        obtain ⟨_, -, h⟩ := h
        exact hlen len h
    · exact ⟨within_fail, fun len h => by simp at h⟩

theorem fetchstr_spec (c : Caller) (addr : ℕ) :
    Within (· < c.sz) (fetchstr c addr) ∧
      ∀ len, (fetchstr c addr).result = some len → addr + len < c.sz := by
  unfold fetchstr
  split_ifs with h
  · exact ⟨within_fail, fun len h => by simp at h⟩
  · exact fetchstrFrom_spec le_rfl

theorem argptr_within (hsz : c.sz < KERNBASE) (n size : ℕ) :
    Within (· < c.sz) (argptr c n size) := by
  unfold argptr
  rw [within_bind]
  refine ⟨argint_within hsz n, fun i _ => ?_⟩
  split_ifs
  · exact within_fail
  · exact within_pure _

theorem argptr_result {n size p : ℕ} (h : (argptr c n size).result = some p) :
    p < c.sz ∧ (p + size) % 2 ^ 32 ≤ c.sz := by
  unfold argptr at h
  rw [result_bind] at h
  obtain ⟨i, -, h⟩ := h
  split_ifs at h with hi
  · simp at h
  · obtain rfl := Option.some.inj h
    omega

/-- A pointer accepted with a size that is not negative bounds a block of the process. -/
theorem argptr_block (hsz : c.sz < KERNBASE) {n size p : ℕ} (hsize : size < 2 ^ 31)
    (h : (argptr c n size).result = some p) : p + size ≤ c.sz := by
  have hk : KERNBASE = 2 ^ 31 := rfl
  obtain ⟨hp, hle⟩ := argptr_result h
  omega

theorem argstr_spec (hsz : c.sz < KERNBASE) (n : ℕ) :
    Within (· < c.sz) (argstr c n) ∧
      ∀ r, (argstr c n).result = some r → r.1 + r.2 < c.sz := by
  unfold argstr
  constructor
  · rw [within_bind]
    refine ⟨argint_within hsz n, fun addr _ => ?_⟩
    rw [within_bind]
    exact ⟨(fetchstr_spec c addr).1, fun _ _ => within_pure _⟩
  · rintro r h
    rw [result_bind] at h
    obtain ⟨addr, -, h⟩ := h
    rw [result_bind] at h
    obtain ⟨len, hlen, h⟩ := h
    obtain rfl := Option.some.inj h
    exact (fetchstr_spec c addr).2 len hlen

theorem argfd_within (hsz : c.sz < KERNBASE) (ofile : ℕ → Option OpenFile) (n : ℕ) :
    Within (· < c.sz) (argfd c ofile n) := by
  unfold argfd
  rw [within_bind]
  refine ⟨argint_within hsz n, fun fd _ => ?_⟩
  split_ifs
  · exact within_fail
  · cases ofile fd with
    | none => exact within_fail
    | some f => exact within_pure _

end accessors

section calls

variable {c : Caller} {ofile : ℕ → Option OpenFile}

theorem signed_of_lt {w : ℕ} (h : w < 2 ^ 31) : signed w = w := if_pos h

theorem signed_neg {w : ℕ} (h : ¬ w < 2 ^ 31) (hw : w < 2 ^ 32) : signed w < 0 := by
  rw [signed, if_neg h]
  omega

theorem signed_toNat_le {sz p n : ℕ} (hsz : sz < 2 ^ 31) (hp : p < sz) (hn : n < 2 ^ 32)
    (h : (p + n) % 2 ^ 32 ≤ sz) : p + (signed n).toNat ≤ sz := by
  by_cases hs : n < 2 ^ 31
  · rw [signed_of_lt hs]
    omega
  · have := signed_neg hs hn
    omega

theorem below_of_lt_signed {sz p n a : ℕ} (hsz : sz < 2 ^ 32) (h : p + (signed n).toNat ≤ sz)
    (ha : ∃ k : ℕ, k < signed n ∧ (p + k) % 2 ^ 32 = a) : a < sz := by
  obtain ⟨k, hk, rfl⟩ := ha
  omega

theorem filewriteFrom_within {sz fuel size addr off n : ℕ} (hsz : sz < 2 ^ 32)
    (h : addr + n ≤ sz) : Within (· < sz) (filewriteFrom fuel size addr off n) := by
  induction fuel generalizing size addr off n with
  | zero => exact within_pure _
  | succ fuel ih =>
    rw [filewriteFrom]
    split_ifs with hn
    · have hblock : ∀ a ∈ block addr (min n filewriteMax), a < sz :=
        block_below hsz (by omega)
      have hw : ∀ a ∈ (writei size addr off (min n filewriteMax)).1, a < sz := by
        unfold writei
        split_ifs
        · exact fun a ha => absurd ha List.not_mem_nil
        · exact fun a ha => absurd ha List.not_mem_nil
        · intro a ha
          exact hblock a ((mem_copyLoop le_rfl).mp ha)
      rw [within_bind, within_touch]
      refine ⟨hw, fun _ _ => ?_⟩
      split_ifs
      · exact within_fail
      · exact ih (by omega)
    · exact within_pure _

theorem devwriteFrom_within {sz fuel addr n : ℕ} (hsz : sz < 2 ^ 32) (h : addr + n ≤ sz) :
    Within (· < sz) (devwriteFrom fuel addr n) := by
  induction fuel generalizing addr n with
  | zero => exact within_pure _
  | succ fuel ih =>
    rw [devwriteFrom]
    split_ifs with hn
    · rw [within_bind, within_touch]
      refine ⟨?_, fun _ _ => ih (by omega)⟩
      unfold consolewrite
      exact block_below hsz (by rw [Int.toNat_natCast]; omega)
    · exact within_pure _

theorem filewrite_within {sz p n : ℕ} (hsz : sz < 2 ^ 32) (devwrite : ℕ → Bool) (f : OpenFile)
    (h : p + (signed n).toNat ≤ sz) : Within (· < sz) (filewrite devwrite f p n) := by
  unfold filewrite
  split_ifs
  · exact within_fail
  · cases f.target with
    | none => exact within_fail
    | pipe avail room => exact fun a ha => below_of_lt_signed hsz h (mem_pipewrite ha)
    | device major input =>
      dsimp only
      split_ifs
      · exact within_fail
      · exact devwriteFrom_within hsz h
    | inode size => exact filewriteFrom_within hsz h

theorem filestat_within {sz st : ℕ} (hsz : sz < 2 ^ 32) (f : OpenFile) (h : st + 20 ≤ sz) :
    Within (· < sz) (filestat f st) := by
  have hstores : Within (· < sz) (touch (block (st + 4) 4 ++ block (st + 8) 4 ++ block st 2 ++
      block (st + 12) 2 ++ block (st + 16) 4)) := by
    rw [within_touch]
    intro a ha
    simp only [List.mem_append] at ha
    rcases ha with (((ha | ha) | ha) | ha) | ha
    all_goals exact block_below hsz (by omega) a ha
  unfold filestat
  cases f.target with
  | none => exact within_fail
  | pipe avail room => exact within_fail
  | device major input => exact hstores
  | inode size => exact hstores

theorem mem_readi {size dst off n a : ℕ} :
    a ∈ readi size dst off n ↔ off ≤ size ∧ off ≤ (off + n) % 2 ^ 32 ∧
      a ∈ block dst (if (off + n) % 2 ^ 32 > size then size - off else n) := by
  unfold readi
  by_cases h : off > size ∨ (off + n) % 2 ^ 32 < off
  · rw [if_pos h]
    constructor
    · exact fun ha => absurd ha List.not_mem_nil
    · rintro ⟨h1, h2, -⟩
      omega
  · rw [if_neg h, mem_copyLoop le_rfl]
    constructor
    · exact fun ha => ⟨by omega, by omega, ha⟩
    · exact fun ha => ha.2.2

theorem block_below_iff {sz p k : ℕ} (hsz : sz < 2 ^ 32) (hp : p < sz) :
    (∀ a ∈ block p k, a < sz) ↔ p + k ≤ sz := by
  constructor
  · intro h
    by_contra hlt
    have hmem : sz ∈ block p k := mem_block.mpr ⟨sz - p, by omega, by omega⟩
    exact absurd (h sz hmem) (lt_irrefl sz)
  · exact block_below hsz

/-- `sys_read` is given a negative length, which `argptr` takes for a small size and `readi`
for a large one, and the rest of the file does not fit. -/
def Overruns (c : Caller) (ofile : ℕ → Option OpenFile) : Prop :=
  ∃ f n p size, (argfd c ofile 0).result = some f ∧ (argint c 2).result = some n ∧
    (argptr c 1 n).result = some p ∧ f.readable = true ∧ f.target = .inode size ∧
    signed n < 0 ∧ f.off ≤ size ∧ f.off.toNat + n < 2 ^ 32 ∧
    c.sz < p + min n (size.toNat - f.off.toNat)

theorem fileread_within_iff {sz p n : ℕ} (hsz : sz < 2 ^ 31) (hp : p < sz) (hn : n < 2 ^ 32)
    (hle : (p + n) % 2 ^ 32 ≤ sz) (devread : ℕ → Bool) (f : OpenFile) :
    Within (· < sz) (fileread devread f p n) ↔
      ¬ ∃ size, f.readable = true ∧ f.target = .inode size ∧ signed n < 0 ∧ f.off ≤ size ∧
        f.off.toNat + n < 2 ^ 32 ∧ sz < p + min n (size.toNat - f.off.toNat) := by
  have hs := signed_toNat_le hsz hp hn hle
  have hsz' : sz < 2 ^ 32 := by omega
  unfold fileread
  by_cases hr : f.readable = false
  · rw [if_pos hr]
    simp [hr]
  · rw [if_neg hr]
    have hr' : f.readable = true := by simpa using hr
    cases ht : f.target with
    | none => simp
    | pipe avail room =>
      have hin : Within (· < sz) (touch (piperead p (signed n) avail 0)) :=
        fun a ha => below_of_lt_signed hsz' hs (mem_piperead ha)
      simp [hin]
    | device major input =>
      have hin : Within (· < sz) (touch (consoleread p (signed n) input)) :=
        fun a ha => below_of_lt_signed hsz' hs (mem_consoleread ha)
      dsimp only
      split_ifs
      · simp
      · simp [hin]
    | inode size =>
      have hsize := size.toNat_lt
      have hoff := f.off.toNat_lt
      have hcond : Within (· < sz) (touch (readi size.toNat p f.off.toNat n)) ↔
          (f.off.toNat ≤ size.toNat → f.off.toNat ≤ (f.off.toNat + n) % 2 ^ 32 →
            p + (if (f.off.toNat + n) % 2 ^ 32 > size.toNat then size.toNat - f.off.toNat
              else n) ≤ sz) := by
        rw [within_touch]
        constructor
        · intro h h1 h2
          rw [← block_below_iff hsz' hp]
          exact fun a ha => h a (mem_readi.mpr ⟨h1, h2, ha⟩)
        · intro h a ha
          obtain ⟨h1, h2, ha⟩ := mem_readi.mp ha
          exact block_below hsz' (h h1 h2) a ha
      rw [hcond]
      constructor
      · rintro h ⟨size', -, heq, -, hle', hnowrap, hover⟩
        obtain rfl := Target.inode.inj heq
        have h1 := UInt32.le_iff_toNat_le.mp hle'
        have h2 := h h1 (by omega)
        split_ifs at h2 <;> omega
      · intro h h1 h2
        by_contra hover
        have hbig : ¬ n < 2 ^ 31 := by
          intro hsmall
          split_ifs at hover <;> omega
        refine h ⟨size, hr', rfl, signed_neg hbig hn, UInt32.le_iff_toNat_le.mpr h1, by omega, ?_⟩
        split_ifs at hover <;> omega

theorem sysRead_within_iff (hsz : c.sz < KERNBASE) (devread : ℕ → Bool)
    (ofile : ℕ → Option OpenFile) :
    Within (· < c.sz) (sysRead devread c ofile) ↔ ¬ Overruns c ofile := by
  unfold sysRead
  rw [within_bind]
  constructor
  · rintro ⟨-, h⟩ ⟨f, n, p, size, hf, hn, hp, hbad⟩
    have h1 := h f hf
    rw [within_bind] at h1
    have h2 := h1.2 n hn
    rw [within_bind] at h2
    obtain ⟨hlt, hle⟩ := argptr_result hp
    exact (fileread_within_iff hsz hlt (argint_lt hn) hle devread f).mp (h2.2 p hp) ⟨size, hbad⟩
  · intro h
    refine ⟨argfd_within hsz ofile 0, fun f hf => ?_⟩
    rw [within_bind]
    refine ⟨argint_within hsz 2, fun n hn => ?_⟩
    rw [within_bind]
    refine ⟨argptr_within hsz 1 n, fun p hp => ?_⟩
    obtain ⟨hlt, hle⟩ := argptr_result hp
    rw [fileread_within_iff hsz hlt (argint_lt hn) hle devread f]
    rintro ⟨size, hbad⟩
    exact h ⟨f, n, p, size, hf, hn, hp, hbad⟩

theorem sysWrite_within (hsz : c.sz < KERNBASE) (devwrite : ℕ → Bool)
    (ofile : ℕ → Option OpenFile) : Within (· < c.sz) (sysWrite devwrite c ofile) := by
  have hk : KERNBASE = 2 ^ 31 := rfl
  unfold sysWrite
  rw [within_bind]
  refine ⟨argfd_within hsz ofile 0, fun f _ => ?_⟩
  rw [within_bind]
  refine ⟨argint_within hsz 2, fun n hn => ?_⟩
  rw [within_bind]
  refine ⟨argptr_within hsz 1 n, fun p hp => ?_⟩
  obtain ⟨hlt, hle⟩ := argptr_result hp
  exact filewrite_within (by omega) devwrite f
    (signed_toNat_le hsz hlt (argint_lt hn) hle)

theorem sysFstat_within (hsz : c.sz < KERNBASE) (ofile : ℕ → Option OpenFile) :
    Within (· < c.sz) (sysFstat c ofile) := by
  have hk : KERNBASE = 2 ^ 31 := rfl
  unfold sysFstat
  rw [within_bind]
  refine ⟨argfd_within hsz ofile 0, fun f _ => ?_⟩
  rw [within_bind]
  refine ⟨argptr_within hsz 1 20, fun st hst => ?_⟩
  exact filestat_within (by omega) f (argptr_block hsz (by decide) hst)

theorem sysPipe_within (hsz : c.sz < KERNBASE) (made : Bool) :
    Within (· < c.sz) (sysPipe c made) := by
  have hk : KERNBASE = 2 ^ 31 := rfl
  unfold sysPipe
  rw [within_bind]
  refine ⟨argptr_within hsz 0 8, fun fd hfd => ?_⟩
  have hblock := argptr_block hsz (by decide) hfd
  split_ifs
  · exact within_fail
  · rw [within_touch]
    intro a ha
    rcases List.mem_append.mp ha with ha | ha
    · exact block_below (by omega) (by omega) a ha
    · exact block_below (by omega) (by omega) a ha

end calls

/-- What the kernel touches through accepted arguments lies in the process, and for `sys_read`
exactly unless it is given a negative length that the rest of a file overruns. -/
theorem args_within_process (c : Caller) (hsz : c.sz < KERNBASE) (ofile : ℕ → Option OpenFile)
    (devread devwrite : ℕ → Bool) (made : Bool) :
    (∀ addr, Within (· < c.sz) (fetchint c addr)) ∧
    (∀ addr, Within (· < c.sz) (fetchstr c addr) ∧
      ∀ len, (fetchstr c addr).result = some len → addr + len < c.sz) ∧
    (∀ n size, Within (· < c.sz) (argptr c n size) ∧
      ∀ p, size < 2 ^ 31 → (argptr c n size).result = some p → p + size ≤ c.sz) ∧
    (∀ n, Within (· < c.sz) (argstr c n) ∧
      ∀ r, (argstr c n).result = some r → r.1 + r.2 < c.sz) ∧
    Within (· < c.sz) (sysWrite devwrite c ofile) ∧
    Within (· < c.sz) (sysFstat c ofile) ∧
    Within (· < c.sz) (sysPipe c made) ∧
    (Within (· < c.sz) (sysRead devread c ofile) ↔ ¬ Overruns c ofile) := by
  refine ⟨fetchint_within hsz, fetchstr_spec c, fun n size => ?_, argstr_spec hsz,
    sysWrite_within hsz devwrite ofile, sysFstat_within hsz ofile, sysPipe_within hsz made,
    sysRead_within_iff hsz devread ofile⟩
  exact ⟨argptr_within hsz n size, fun p hsize hp => argptr_block hsz hsize hp⟩

def callerWith (fd p n : ℕ) : Caller where
  sz := 64
  esp := 0
  mem := fun a => (Bytes.natBytes 4 fd ++ Bytes.natBytes 4 p ++ Bytes.natBytes 4 n).getD (a - 4) 0

def smallFile (fd : ℕ) : Option OpenFile :=
  if fd = 0 then some ⟨.inode 20, true, true, 0⟩ else none

/-- Reading 10 bytes to address 40 stays inside. -/
theorem args_within_process_ten :
    Within (· < (callerWith 0 40 10).sz)
      (sysRead (fun _ => false) (callerWith 0 40 10) smallFile) := by
  have h := args_within_process (callerWith 0 40 10) (by decide) smallFile (fun _ => false)
    (fun _ => false) true
  rw [h.2.2.2.2.2.2.2]
  rintro ⟨f, n, p, size, -, hn, -, -, -, hneg, -⟩
  have hval : (argint (callerWith 0 40 10) 2).result = some 10 := by decide
  rw [hval] at hn
  obtain rfl := Option.some.inj hn
  exact absurd hneg (by decide)

/-- `read(0, 60, -1)` in a process of 64 bytes stores the 20 bytes of the file at 60. -/
theorem sysRead_negative_overruns :
    ¬ Within (· < (callerWith 0 60 (2 ^ 32 - 1)).sz)
      (sysRead (fun _ => false) (callerWith 0 60 (2 ^ 32 - 1)) smallFile) := by
  intro h
  have hmem : 79 ∈ (sysRead (fun _ => false) (callerWith 0 60 (2 ^ 32 - 1)) smallFile).touched := by
    decide +kernel
  exact absurd (h 79 hmem) (by decide)

end Args
end Xv6
