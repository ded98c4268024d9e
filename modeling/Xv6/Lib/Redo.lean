import Mathlib.Data.List.Basic
import Mathlib.Data.List.Nodup
import Mathlib.Logic.Function.Basic

/-! Lists of writes to a store, and replaying them. A list with distinct addresses can be
cut anywhere and applied again from its start without changing the result. -/
namespace Redo

variable {A V : Type*} [DecidableEq A]

/-- The store after the writes of `ws`, first to last. -/
def apply (ws : List (A × V)) (d : A → V) : A → V :=
  ws.foldl (fun d w => Function.update d w.1 w.2) d

@[simp] theorem apply_nil (d : A → V) : apply [] d = d := rfl

@[simp] theorem apply_cons (w : A × V) (ws : List (A × V)) (d : A → V) :
    apply (w :: ws) d = apply ws (Function.update d w.1 w.2) := rfl

@[simp] theorem apply_append (ws vs : List (A × V)) (d : A → V) :
    apply (ws ++ vs) d = apply vs (apply ws d) := by
  simp [apply]

theorem apply_of_notMem {ws : List (A × V)} {a : A} (h : ∀ w ∈ ws, w.1 ≠ a) (d : A → V) :
    apply ws d a = d a := by
  induction ws generalizing d with
  | nil => rfl
  | cons w ws ih =>
    have hw := h w List.mem_cons_self
    rw [apply_cons, ih (fun v hv => h v (List.mem_cons_of_mem w hv)),
      Function.update_of_ne hw.symm]

theorem apply_of_mem {ws : List (A × V)} (hnd : (ws.map Prod.fst).Nodup) {a : A} {v : V}
    (h : (a, v) ∈ ws) (d : A → V) : apply ws d a = v := by
  induction ws generalizing d with
  | nil => simp at h
  | cons w ws ih =>
    rw [List.map_cons, List.nodup_cons] at hnd
    rcases List.mem_cons.mp h with rfl | h
    · rw [apply_cons, apply_of_notMem, Function.update_self]
      intro u hu he
      exact hnd.1 (List.mem_map.mpr ⟨u, hu, he⟩)
    · exact ih hnd.2 h _

theorem apply_congr {ws : List (A × V)} {c d : A → V} {a : A}
    (h : c a = d a ∨ ∃ w ∈ ws, w.1 = a) : apply ws c a = apply ws d a := by
  induction ws generalizing c d with
  | nil =>
    rcases h with h | ⟨w, hw, _⟩
    · exact h
    · simp at hw
  | cons w ws ih =>
    rw [apply_cons, apply_cons]
    apply ih
    by_cases hw : w.1 = a
    · left
      simp [← hw]
    · rcases h with h | ⟨u, hu, hua⟩
      · left
        simp [Function.update_of_ne (Ne.symm hw), h]
      · right
        rcases List.mem_cons.mp hu with rfl | hu
        · exact absurd hua hw
        · exact ⟨u, hu, hua⟩

end Redo
