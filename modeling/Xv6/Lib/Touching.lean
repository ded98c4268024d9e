import Mathlib.Data.List.Basic

/-! Computations that may fail and record the addresses they touch. -/

/-- The addresses touched, in order, and the result unless the computation failed. -/
def Touching (ι α : Type) := List ι × Option α

namespace Touching

variable {ι α β : Type}

instance : Monad (Touching ι) where
  pure a := ([], some a)
  bind m f :=
    match m with
    | (t, none) => (t, none)
    | (t, some a) => (t ++ (f a).1, (f a).2)

def fail : Touching ι α := ([], none)

def touch (l : List ι) : Touching ι Unit := (l, some ())

def touched (m : Touching ι α) : List ι := m.1

def result (m : Touching ι α) : Option α := m.2

def Within (P : ι → Prop) (m : Touching ι α) : Prop := ∀ a ∈ m.touched, P a

variable {P : ι → Prop} {m : Touching ι α} {f : α → Touching ι β}

@[simp] theorem within_pure (a : α) : Within P (pure a : Touching ι α) := by
  intro x hx
  exact absurd hx List.not_mem_nil

@[simp] theorem within_fail : Within P (fail : Touching ι α) := by
  intro x hx
  exact absurd hx List.not_mem_nil

@[simp] theorem within_touch (l : List ι) : Within P (touch l) ↔ ∀ a ∈ l, P a := Iff.rfl

@[simp] theorem result_pure (a : α) : (pure a : Touching ι α).result = some a := rfl

@[simp] theorem result_fail : (fail : Touching ι α).result = none := rfl

@[simp] theorem result_touch (l : List ι) : (touch l).result = some () := rfl

theorem within_bind :
    Within P (m >>= f) ↔ Within P m ∧ ∀ a, m.result = some a → Within P (f a) := by
  obtain ⟨t, r⟩ := m
  cases r with
  | none =>
    constructor
    · intro h
      exact ⟨h, fun a ha => by simp [result] at ha⟩
    · exact fun h => h.1
  | some a =>
    constructor
    · intro h
      refine ⟨fun x hx => h x (List.mem_append_left _ hx), ?_⟩
      intro b hb
      obtain rfl := Option.some.inj hb
      exact fun x hx => h x (List.mem_append_right _ hx)
    · rintro ⟨h1, h2⟩ x hx
      rcases List.mem_append.mp hx with hx | hx
      · exact h1 x hx
      · exact h2 a rfl x hx

theorem result_bind {b : β} :
    (m >>= f).result = some b ↔ ∃ a, m.result = some a ∧ (f a).result = some b := by
  obtain ⟨t, r⟩ := m
  cases r with
  | none => simp [result, bind]
  | some a => simp [result, bind]

end Touching
