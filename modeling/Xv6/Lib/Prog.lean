import Mathlib.Logic.Basic
import Mathlib.Data.List.Basic

/-! Programs over a state that may stop early, and their weakest preconditions. -/

/-- How a run ends: with a value and the state then, or stopped for a reason `ε`. -/
inductive Outcome (ε σ α : Type) where
  | ok (a : α) (s : σ)
  | stop (e : ε)

def Prog (ε σ α : Type) := σ → Outcome ε σ α

namespace Prog

variable {ε σ α β : Type}

instance : Monad (Prog ε σ) where
  pure a := fun s => .ok a s
  bind m f := fun s =>
    match m s with
    | .ok a t => f a t
    | .stop e => .stop e

def get : Prog ε σ σ := fun s => .ok s s

def modify (f : σ → σ) : Prog ε σ Unit := fun s => .ok () (f s)

def stop (e : ε) : Prog ε σ α := fun _ => .stop e

/-- Every run of `m` from `s` ends with `Q`, or stops for a reason in `E`. -/
@[irreducible] def wp (m : Prog ε σ α) (s : σ) (Q : α → σ → Prop) (E : ε → Prop) : Prop :=
  match m s with
  | .ok a t => Q a t
  | .stop e => E e

variable {m : Prog ε σ α} {f : α → Prog ε σ β} {s t : σ} {Q Q' : α → σ → Prop}
  {R : β → σ → Prop} {E E' : ε → Prop}

@[simp] theorem wp_pure (a : α) : wp (pure a : Prog ε σ α) s Q E ↔ Q a s := by
  unfold wp
  rfl

@[simp] theorem wp_get {Q : σ → σ → Prop} : wp (get : Prog ε σ σ) s Q E ↔ Q s s := by
  unfold wp
  rfl

@[simp] theorem wp_modify {g : σ → σ} {Q : Unit → σ → Prop} :
    wp (modify g : Prog ε σ Unit) s Q E ↔ Q () (g s) := by
  unfold wp
  rfl

@[simp] theorem wp_stop (e : ε) : wp (stop e : Prog ε σ α) s Q E ↔ E e := by
  unfold wp
  rfl

@[simp] theorem wp_bind :
    wp (m >>= f) s R E ↔ wp m s (fun a t => wp (f a) t R E) E := by
  unfold wp
  simp only [bind]
  cases m s <;> rfl

theorem wp_mono (h : wp m s Q E) (hQ : ∀ a t, Q a t → Q' a t) (hE : ∀ e, E e → E' e) :
    wp m s Q' E' := by
  unfold wp at h ⊢
  cases hm : m s with
  | ok a t =>
    rw [hm] at h
    exact hQ a t h
  | stop e =>
    rw [hm] at h
    exact hE e h

theorem wp_post (h : wp m s Q E) (hQ : ∀ a t, Q a t → Q' a t) : wp m s Q' E :=
  wp_mono h hQ fun _ he => he

theorem wp_seq (h : wp m s Q E) (hf : ∀ a t, Q a t → wp (f a) t R E) : wp (m >>= f) s R E := by
  rw [wp_bind]
  exact wp_post h hf

theorem wp_and (h : wp m s Q E) (h' : wp m s Q' E') : wp m s (fun a t => Q a t ∧ Q' a t) E := by
  unfold wp at h h' ⊢
  cases hm : m s with
  | ok a t =>
    rw [hm] at h h'
    exact ⟨h, h'⟩
  | stop e =>
    rw [hm] at h
    exact h

theorem wp_trivial (m : Prog ε σ α) (s : σ) : wp m s (fun _ _ => True) fun _ => True := by
  unfold wp
  cases m s <;> trivial

theorem wp_absurd (h : wp m s Q E) (h' : wp m s (fun a t => ¬Q a t) fun _ => False) : False := by
  unfold wp at h h'
  cases hm : m s with
  | ok a t =>
    rw [hm] at h h'
    exact h' h
  | stop e =>
    rw [hm] at h'
    exact h'

theorem exists_of_wp (h : wp m s Q fun _ => False) : ∃ a t, Q a t := by
  unfold wp at h
  cases hm : m s with
  | ok a t =>
    rw [hm] at h
    exact ⟨a, t, h⟩
  | stop e =>
    rw [hm] at h
    exact h.elim

theorem wp_of_eq {a : α} (h : m s = .ok a t) : wp m s Q E ↔ Q a t := by
  unfold wp
  rw [h]

theorem wp_of_stop {e : ε} (h : m s = .stop e) : wp m s Q E ↔ E e := by
  unfold wp
  rw [h]

theorem wp_forM_nil {g : α → Prog ε σ PUnit} {Q : PUnit → σ → Prop} :
    wp (([] : List α).forM g) s Q E ↔ Q ⟨⟩ s := wp_pure _

theorem wp_forM_cons {a : α} {l : List α} {g : α → Prog ε σ PUnit} {Q : PUnit → σ → Prop} :
    wp ((a :: l).forM g) s Q E ↔ wp (g a) s (fun _ t => wp (l.forM g) t Q E) E := wp_bind

/-- A loop over a list: `I` holds of the part that has been gone through. -/
theorem wp_forM {l : List α} {g : α → Prog ε σ PUnit} {I : List α → σ → Prop}
    (hstep : ∀ done a rest u, l = done ++ a :: rest → I done u →
      wp (g a) u (fun _ t => I (done ++ [a]) t) E) (h : I [] s) :
    wp (l.forM g) s (fun _ t => I l t) E := by
  suffices hgen : ∀ rest done u, l = done ++ rest → I done u →
      wp (rest.forM g) u (fun _ t => I l t) E from hgen l [] s rfl h
  intro rest
  induction rest with
  | nil =>
    intro done u hl hu
    rw [List.append_nil] at hl
    exact (wp_pure _).mpr (hl ▸ hu)
  | cons a rest ih =>
    intro done u hl hu
    refine wp_seq (hstep done a rest u hl hu) ?_
    intro _ t ht
    exact ih (done ++ [a]) t (by rw [hl, List.append_assoc]; rfl) ht

theorem wp_total (h : wp m s Q fun _ => False) : ∃ a t, m s = .ok a t ∧ Q a t := by
  unfold wp at h
  cases hm : m s with
  | ok a t =>
    rw [hm] at h
    exact ⟨a, t, rfl, h⟩
  | stop e =>
    rw [hm] at h
    exact h.elim

theorem wp_ok (Q : α → σ → Prop) {a : α} (h : m s = .ok a t) (hm : wp m s Q E) : Q a t := by
  exact (wp_of_eq h).mp hm

/-- A program run beside a record that it does not use; a stop keeps the record. -/
def beside {τ : Type} (m : Prog ε σ α) : Prog (ε × τ) (σ × τ) α := fun s =>
  match m s.1 with
  | .ok a t => .ok a (t, s.2)
  | .stop e => .stop (e, s.2)

@[simp] theorem wp_beside {τ : Type} {l : τ} {Q : α → σ × τ → Prop} {E : ε × τ → Prop} :
    wp (m.beside : Prog (ε × τ) (σ × τ) α) (s, l) Q E ↔
      wp m s (fun a t => Q a (t, l)) (fun e => E (e, l)) := by
  unfold wp beside
  dsimp only
  cases m s <;> rfl

/-- A program run on a part of the state. -/
def zoom {τ : Type} (part : σ → τ) (put : τ → σ → σ) (m : Prog ε τ α) : Prog ε σ α := fun s =>
  match m (part s) with
  | .ok a t => .ok a (put t s)
  | .stop e => .stop e

@[simp] theorem wp_zoom {τ : Type} {part : σ → τ} {put : τ → σ → σ} {m : Prog ε τ α} :
    wp (zoom part put m) s Q E ↔ wp m (part s) (fun a t => Q a (put t s)) E := by
  unfold wp zoom
  cases m (part s) <;> rfl

end Prog
