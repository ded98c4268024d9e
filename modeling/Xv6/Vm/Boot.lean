import Xv6.Vm.Kernel

/-! How the pages come onto the free list. -/
namespace Xv6
namespace Vm
open Prog

instance (k : Image) (f : ℕ) : Decidable (k.Pool f) :=
  inferInstanceAs (Decidable (k.kend ≤ p2v (f * PGSIZE) ∧ f * PGSIZE < PHYSTOP))

def Image.firstFrame (k : Image) : ℕ := pagesOf (k.kend - KERNBASE)

theorem owns_start {ι κ : Type} {k : Image} {D : ι → Option ℕ} {O : κ → Option ℕ}
    (page : ℕ → Page) (reserve : ℕ → κ) (hD : ∀ x, D x = none)
    (hO : ∀ y f, O y = some f → y = reserve f ∧ k.Pool f) : Owns k ⟨page, []⟩ D O := by
  have hheld : ∀ z f, owned ⟨page, []⟩ D O z = some f → z = .other (reserve f) ∧ k.Pool f := by
    intro z f hz
    cases z with
    | spine w => cases w <;> simp [owned, spine, hD] at hz
    | user x v => simp [owned, hD] at hz
    | other y =>
      obtain ⟨rfl, hpool⟩ := hO y f hz
      exact ⟨rfl, hpool⟩
  refine ⟨⟨List.nodup_nil, ?_, ?_⟩, ?_, fun z f hz => (hheld z f hz).2⟩
  · intro z z' f hz hz'
    rw [(hheld z f hz).1, (hheld z' f hz').1]
  · exact fun _ _ _ => List.not_mem_nil
  · exact fun f hf => absurd hf List.not_mem_nil

theorem Image.kend_bounds (k : Image) : 0x80100000 < k.kend ∧ k.kend ≤ 0x80400000 := by
  obtain ⟨-, h1, -⟩ := k.data_bounds
  have h2 := k.data_le
  have h3 := k.kend_le
  rw [KERNBASE] at h3
  exact ⟨by omega, by omega⟩

theorem Image.pool_iff (k : Image) {f : ℕ} : k.Pool f ↔ k.firstFrame ≤ f ∧ f < 0xE000 := by
  obtain ⟨h1, h2⟩ := k.kend_bounds
  rw [Image.Pool, Image.firstFrame, pagesOf, p2v, PHYSTOP, PGSIZE_eq, KERNBASE]
  omega

theorem kernelPte_pool (k : Image) {f : ℕ} (hf : k.Pool f) :
    kernelPte k (userPages + f) = entry f PTE_W := by
  obtain ⟨h0, h1, h2⟩ := k.data_bounds
  have h3 := k.data_le
  have h4 := (k.pool_iff.mp hf).2
  have h5 := hf.1
  rw [p2v, KERNBASE, PGSIZE_eq] at h5
  have hno : ∀ m ∈ [(⟨0x80000000, 0, 0x100000, 2⟩ : Kmap),
      ⟨0x80100000, 0x100000, k.data - 0x80000000, 0⟩], ¬ m.Covers (userPages + f) := by
    intro m hm hcov
    obtain ⟨-, hlt⟩ := hcov
    simp only [List.mem_cons, List.not_mem_nil, or_false] at hm
    rcases hm with rfl | rfl <;> dsimp only [Kmap.first, Kmap.count] at hlt <;>
      rw [userPages_eq, PGSIZE_eq] at hlt <;> omega
  have hyes : (⟨k.data, k.data - 0x80000000, 0xE000000, 2⟩ : Kmap).Covers (userPages + f) := by
    refine ⟨?_, ?_⟩ <;> dsimp only [Kmap.first, Kmap.count] <;> rw [userPages_eq, PGSIZE_eq] <;>
      omega
  have hphys : (k.data - 0x80000000 + (userPages + f - k.data / PGSIZE) * PGSIZE) % 2 ^ 32 =
      f * PGSIZE := by
    rw [userPages_eq, PGSIZE_eq]
    omega
  rw [kernelPte, kmap_eq, ptesOf, if_neg (hno _ (by simp)), ptesOf, if_neg (hno _ (by simp)),
    ptesOf,
    if_pos hyes, mapped]
  dsimp only [Kmap.first]
  rw [hphys]
  rfl

theorem kinit1_eq (k : Image) :
    kinit1 k = (List.range' k.firstFrame (1024 - k.firstFrame)).forM fun f => kfree k f := by
  obtain ⟨h1, h2⟩ := k.kend_bounds
  have hup : PGROUNDUP k.kend = k.firstFrame * 4096 + 0x80000000 := by
    rw [PGROUNDUP, Image.firstFrame, pagesOf, PGSIZE_eq, KERNBASE]
    omega
  have hlow : v2p (PGROUNDUP k.kend) / PGSIZE = k.firstFrame := by
    have hle : k.firstFrame ≤ 1024 := by
      rw [Image.firstFrame, pagesOf, PGSIZE_eq, KERNBASE]
      omega
    rw [hup, v2p, PGSIZE_eq, KERNBASE]
    omega
  have hcount : (p2v (4 * 1024 * 1024) - PGROUNDUP k.kend) / PGSIZE = 1024 - k.firstFrame := by
    have hp : p2v (4 * 1024 * 1024) = 0x80400000 := by decide
    rw [hup, hp, PGSIZE_eq]
    omega
  rw [kinit1, freerange, hlow, hcount]

theorem kinit2_eq (k : Image) :
    kinit2 k = (List.range' 1024 (0xE000 - 1024)).forM fun f => kfree k f := by
  have hlow : v2p (PGROUNDUP (p2v (4 * 1024 * 1024))) / PGSIZE = 1024 := by decide
  have hcount : (p2v PHYSTOP - PGROUNDUP (p2v (4 * 1024 * 1024))) / PGSIZE = 0xE000 - 1024 := by
    decide
  rw [kinit2, freerange, hlow, hcount]

section boot

variable {ι κ : Type} [DecidableEq ι] [DecidableEq κ] {k : Image} {s : Mem} {D : ι → Option ℕ}
  {O : κ → Option ℕ} {spot : ℕ → κ} {a n : ℕ}

def released (O : κ → Option ℕ) (spot : ℕ → κ) (a : ℕ) : ℕ → κ → Option ℕ
  | 0 => O
  | n + 1 => released (Function.update O (spot a) none) spot (a + 1) n

theorem freerange_spec (h : Owns k s D O) (hspot : Function.Injective spot)
    (hO : ∀ i < n, O (spot (a + i)) = some (a + i)) :
    wp ((List.range' a n).forM fun f => kfree k f) s
      (fun _ t => Owns k t D (released O spot a n) ∧ SamePtes D s t ∧
        t.free.length = s.free.length + n) (fun _ => False) := by
  induction n generalizing s O a with
  | zero =>
    rw [List.range'_zero, wp_forM_nil]
    exact ⟨h, fun _ _ _ _ _ => rfl, rfl⟩
  | succ n ih =>
    have hheld : O (spot a) = some a := hO 0 (by omega)
    have hpool : k.Pool a := h.held (.other (spot a)) a hheld
    obtain ⟨howns, hsame⟩ := (h.takeOut hheld).kfree (fill 1)
    rw [List.range'_succ, wp_forM_cons, wp_kfree hpool]
    refine wp_post (ih howns ?_) ?_
    · intro i hi
      have hne : spot (a + 1 + i) ≠ spot a := fun heq => by
        have := hspot heq
        omega
      rw [Function.update_of_ne hne, show a + 1 + i = a + (i + 1) by omega]
      exact hO (i + 1) (by omega)
    · rintro _ t ⟨h1, h2, h3⟩
      refine ⟨h1, ?_, ?_⟩
      · intro y e u hy hu
        rw [h2 y e u hy hu, hsame y e u hy hu]
      · rw [h3]
        show (s.free.length + 1) + n = s.free.length + (n + 1)
        omega

end boot

end Vm
end Xv6
