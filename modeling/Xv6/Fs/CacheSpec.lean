import Xv6.Fs.Refine
import Xv6.Fs.Dir

/-! What the scan of `iget` finds. -/
namespace Xv6
open Prog

section scan

variable {s : Fs} {dev inum : ℕ}

theorem igetScan_inl {l : List InodeId} {empty : Option InodeId} {ip : InodeId}
    (h : igetScan s dev inum l empty = .inl ip) :
    0 < (s.inode ip).ref ∧ (s.inode ip).inum = inum := by
  induction l generalizing empty with
  | nil => simp [igetScan] at h
  | cons jp l ih =>
    rw [igetScan] at h
    split_ifs at h with hj
    · obtain rfl := Sum.inl.inj h
      exact ⟨hj.1, hj.2.2⟩
    · exact ih h
    · exact ih h

theorem igetScan_inr {l : List InodeId} {empty e : Option InodeId}
    (h : igetScan s dev inum l empty = .inr e) :
    (∀ ip ∈ l, ¬ ((s.inode ip).ref > 0 ∧ (s.inode ip).dev = dev ∧ (s.inode ip).inum = inum)) ∧
      ∀ ip, e = some ip → empty = some ip ∨ (s.inode ip).ref = 0 := by
  induction l generalizing empty with
  | nil =>
    rw [igetScan, Sum.inr.injEq] at h
    subst h
    exact ⟨fun ip hip => absurd hip List.not_mem_nil, fun ip hip => Or.inl hip⟩
  | cons jp l ih =>
    rw [igetScan] at h
    by_cases hj : (s.inode jp).ref > 0 ∧ (s.inode jp).dev = dev ∧ (s.inode jp).inum = inum
    · simp [hj] at h
    · rw [if_neg hj] at h
      obtain ⟨hall, hempty⟩ := ih h
      constructor
      · intro ip hip
        rcases List.mem_cons.mp hip with rfl | hip
        · exact hj
        · exact hall ip hip
      · intro ip hip
        rcases hempty ip hip with hsome | href
        · split_ifs at hsome with hnew
          · obtain rfl := Option.some.inj hsome
            exact Or.inr hnew.2
          · exact Or.inl hsome
        · exact Or.inr href

end scan

end Xv6
