import Mathlib.Data.List.Basic

/-! Runs of a deterministic machine `step : S → A → Option S` under a list of actions, where
`none` means that the action is not enabled. -/
namespace Run

variable {S A : Type*} (step : S → A → Option S)

/-- The state after the actions, if each is enabled when its turn comes. -/
def exec : S → List A → Option S
  | s, [] => some s
  | s, a :: as => (step s a).bind fun t => exec t as

def Reaches (s t : S) : Prop := ∃ as, exec step s as = some t

/-- Every action of the run meets `C` in the state in which it is taken. -/
def Along (C : S → A → Prop) : S → List A → Prop
  | _, [] => True
  | s, a :: as => C s a ∧ ∀ t, step s a = some t → Along C t as

variable {step}

theorem exec_cons {s u : S} {a : A} {as : List A} (h : exec step s (a :: as) = some u) :
    ∃ t, step s a = some t ∧ exec step t as = some u := by
  simpa [exec, Option.bind_eq_some_iff] using h

theorem exec_append {s t u : S} {as bs : List A} (h : exec step s as = some t)
    (h' : exec step t bs = some u) : exec step s (as ++ bs) = some u := by
  induction as generalizing s with
  | nil => exact Option.some.inj h ▸ h'
  | cons a as ih =>
    obtain ⟨r, hr, h⟩ := exec_cons h
    rw [List.cons_append, exec, hr]
    exact ih h

theorem exec_invariant {C : S → A → Prop} {I : S → Prop}
    (hstep : ∀ s a t, I s → C s a → step s a = some t → I t) {s t : S} {as : List A} (hs : I s)
    (hC : Along step C s as) (h : exec step s as = some t) : I t := by
  induction as generalizing s with
  | nil => exact Option.some.inj h ▸ hs
  | cons a as ih =>
    obtain ⟨u, hu, h⟩ := exec_cons h
    exact ih (hstep s a u hs hC.1 hu) (hC.2 u hu) h

theorem along_of_forall {C : S → A → Prop} (hC : ∀ s a, C s a) (s : S) (as : List A) :
    Along step C s as := by
  induction as generalizing s with
  | nil => trivial
  | cons a as ih => exact ⟨hC s a, fun t _ => ih t⟩

theorem Reaches.invariant {I : S → Prop} (hstep : ∀ s a t, I s → step s a = some t → I t)
    {s t : S} (hs : I s) (h : Reaches step s t) : I t := by
  obtain ⟨as, h⟩ := h
  exact exec_invariant (C := fun _ _ => True) (fun s a t hI _ => hstep s a t hI) hs
    (along_of_forall (fun _ _ => trivial) s as) h

theorem Reaches.refl (s : S) : Reaches step s s := ⟨[], rfl⟩

theorem Reaches.head {s t u : S} {a : A} (h : step s a = some t) (h' : Reaches step t u) :
    Reaches step s u := by
  obtain ⟨as, h'⟩ := h'
  exact ⟨a :: as, by simp [exec, h, h']⟩

theorem Reaches.trans {s t u : S} (h : Reaches step s t) (h' : Reaches step t u) :
    Reaches step s u := by
  obtain ⟨as, h⟩ := h
  obtain ⟨bs, h'⟩ := h'
  exact ⟨as ++ bs, exec_append h h'⟩

theorem along_cons {C : S → A → Prop} {s t : S} {a : A} {as : List A} (h : step s a = some t) :
    Along step C s (a :: as) ↔ C s a ∧ Along step C t as := by
  refine ⟨fun hC => ⟨hC.1, hC.2 t h⟩, fun hC => ⟨hC.1, fun u hu => ?_⟩⟩
  rw [h, Option.some.injEq] at hu
  exact hu ▸ hC.2

instance decidableAlong {C : S → A → Prop} [∀ s a, Decidable (C s a)] :
    ∀ s as, Decidable (Along step C s as)
  | _, [] => isTrue trivial
  | s, a :: as =>
    match h : step s a with
    | none => decidable_of_iff (C s a) ⟨fun hC => ⟨hC, fun t ht => by simp [h] at ht⟩, And.left⟩
    | some t =>
      have := decidableAlong (C := C) t as
      decidable_of_iff _ (along_cons h).symm

end Run
