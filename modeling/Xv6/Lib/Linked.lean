import Mathlib.Data.List.Nodup
import Mathlib.Data.List.Pairwise
import Mathlib.Logic.Function.Basic
import Mathlib.Order.Defs.LinearOrder
import Mathlib.Logic.Function.Iterate

/-! Singly linked lists: cells with a pointer in each to the next, ending in a null pointer or
leading back to the first. -/

variable {α : Type*}

/-- The cells reached from the pointer are those of the list. -/
def Linked (next : α → Option α) : Option α → List α → Prop
  | p, [] => p = none
  | p, a :: l => p = some a ∧ Linked next (next a) l

def lastFrom (next : α → Option α) : ℕ → α → α
  | 0, a => a
  | n + 1, a =>
    match next a with
    | none => a
    | some b => lastFrom next n b

section linked

variable {next next' : α → Option α} {p : Option α} {a b : α} {l : List α}

theorem Linked.congr (h : Linked next p l) (heq : ∀ a ∈ l, next' a = next a) :
    Linked next' p l := by
  induction l generalizing p with
  | nil => exact h
  | cons a l ih =>
    refine ⟨h.1, ?_⟩
    rw [heq a List.mem_cons_self]
    exact ih h.2 fun c hc => heq c (List.mem_cons_of_mem a hc)

theorem Linked.head (h : Linked next p l) : p = l.head? := by
  cases l with
  | nil => exact h
  | cons a l => exact h.1

theorem lastFrom_none (h : next a = none) (n : ℕ) : lastFrom next n a = a := by
  cases n with
  | zero => rfl
  | succ n => simp [lastFrom, h]

theorem lastFrom_some (h : next a = some b) (n : ℕ) :
    lastFrom next (n + 1) a = lastFrom next n b := by
  simp [lastFrom, h]

theorem Linked.lastFrom_mem (h : Linked next (some a) (a :: l)) (n : ℕ) :
    lastFrom next n a ∈ a :: l := by
  induction n generalizing a l with
  | zero => exact List.mem_cons_self
  | succ n ih =>
    cases l with
    | nil =>
      rw [lastFrom_none h.2]
      exact List.mem_cons_self
    | cons c l =>
      rw [lastFrom_some h.2.1]
      exact List.mem_cons_of_mem a (ih ⟨rfl, h.2.2⟩)

variable [DecidableEq α]

theorem Linked.append {n : ℕ} (h : Linked next (some a) (a :: l)) (hnodup : (a :: l).Nodup)
    (hb : b ∉ a :: l) (hnext : next b = none) (hn : l.length ≤ n) :
    Linked (Function.update next (lastFrom next n a) (some b)) (some a) (a :: l ++ [b]) := by
  induction l generalizing a n with
  | nil =>
    have hba : b ≠ a := fun heq => hb (heq ▸ List.mem_singleton_self a)
    have hlast := lastFrom_none h.2 n
    refine ⟨rfl, ?_⟩
    rw [hlast, Function.update_self]
    refine ⟨rfl, ?_⟩
    rw [Function.update_of_ne hba]
    exact hnext
  | cons c l ih =>
    obtain ⟨m, rfl⟩ : ∃ m, n = m + 1 := ⟨n - 1, by simp at hn; omega⟩
    have hc := h.2.1
    have htail := List.nodup_cons.mp hnodup
    have hrec := ih (a := c) (n := m) ⟨rfl, h.2.2⟩ htail.2
      (fun hmem => hb (List.mem_cons_of_mem a hmem)) (by simpa using hn)
    have hne : a ≠ lastFrom next (m + 1) a := by
      rw [lastFrom_some hc]
      intro heq
      have hmem := Linked.lastFrom_mem (a := c) ⟨rfl, h.2.2⟩ m
      exact htail.1 (heq ▸ hmem)
    refine ⟨rfl, ?_⟩
    rw [Function.update_of_ne hne, hc, lastFrom_some hc]
    exact hrec

end linked

/-- The pointers lead from `a` through the cells of the list to `b`. A ring is a path from a
cell to itself. -/
def Leads (next : α → α) : α → List α → α → Prop
  | a, [], b => next a = b
  | a, c :: l, b => next a = c ∧ Leads next c l b

namespace Leads

section leads

variable {next next' : α → α} {a b c x y : α} {l l₁ l₂ : List α}

theorem map_eq (h : Leads next a l b) : (a :: l).map next = l ++ [b] := by
  induction l generalizing a with
  | nil => exact congrArg (fun c => [c]) h
  | cons c l ih =>
    rw [List.map_cons, h.1, ih h.2]
    rfl

theorem append_iff :
    Leads next a (l₁ ++ c :: l₂) b ↔ Leads next a l₁ c ∧ Leads next c l₂ b := by
  induction l₁ generalizing a with
  | nil => exact Iff.rfl
  | cons d l₁ ih => simp only [List.cons_append, Leads, ih, and_assoc]

theorem iterate_mem (h : Leads next a l a) (i : ℕ) : next^[i] a ∈ a :: l := by
  induction i with
  | zero => exact List.mem_cons_self
  | succ i ih =>
    have hnext := List.mem_map_of_mem (f := next) ih
    rw [h.map_eq, List.mem_append, List.mem_singleton, or_comm] at hnext
    rw [Function.iterate_succ_apply']
    exact List.mem_cons.mpr hnext

theorem congr (h : Leads next a l b) (heq : ∀ x ∈ a :: l, next' x = next x) :
    Leads next' a l b := by
  induction l generalizing a with
  | nil => exact (heq a List.mem_cons_self).trans h
  | cons c l ih =>
    refine ⟨(heq a List.mem_cons_self).trans h.1, ih h.2 fun x hx => ?_⟩
    exact heq x (List.mem_cons_of_mem a hx)

theorem next_last (h : Leads next a l b) : next ((a :: l).getLast (List.cons_ne_nil a l)) = b := by
  induction l generalizing a with
  | nil => exact h
  | cons c l ih => exact ih h.2

theorem cut (h : Leads next a (l₁ ++ l₂) b) :
    Leads next a l₁ (next ((a :: l₁).getLast (List.cons_ne_nil a l₁))) ∧
      Leads next ((a :: l₁).getLast (List.cons_ne_nil a l₁)) l₂ b := by
  induction l₁ generalizing a with
  | nil => exact ⟨rfl, h⟩
  | cons c l₁ ih =>
    obtain ⟨hfirst, hsecond⟩ := ih h.2
    exact ⟨⟨h.1, hfirst⟩, hsecond⟩

theorem splice (h₁ : Leads next a l₁ (next c)) (h₂ : Leads next c l₂ b) :
    Leads next a (l₁ ++ l₂) b := by
  cases l₂ with
  | nil => exact (List.append_nil l₁).symm ▸ (h₂ : next c = b) ▸ h₁
  | cons d l₂ => exact append_iff.mpr ⟨h₂.1 ▸ h₁, h₂.2⟩

theorem upto {q : α} (h : Leads next a l b) (heq : l ++ [b] = l₁ ++ q :: l₂) :
    Leads next a l₁ q := by
  induction l₁ generalizing a l with
  | nil =>
    cases l with
    | nil => exact h.trans (List.cons.inj heq).1
    | cons c l => exact h.1.trans (List.cons.inj heq).1
  | cons d l₁ ih =>
    cases l with
    | nil => simp at heq
    | cons c l =>
      obtain ⟨rfl, htail⟩ := List.cons.inj heq
      exact ⟨h.1, ih h.2 htail⟩

theorem cases_next [Preorder α] (h : Leads next a l b) (hsorted : (a :: l).Pairwise (· < ·))
    (hx : x ∈ a :: l) :
    (x = (a :: l).getLast (List.cons_ne_nil a l) ∧ next x = b) ∨ (x < next x ∧ next x ∈ l) := by
  induction l generalizing a with
  | nil =>
    obtain rfl := List.mem_singleton.mp hx
    exact .inl ⟨rfl, h⟩
  | cons c l ih =>
    obtain ⟨ha, hl⟩ := List.pairwise_cons.mp hsorted
    rcases List.mem_cons.mp hx with rfl | hx
    · rw [h.1]
      exact .inr ⟨ha c List.mem_cons_self, List.mem_cons_self⟩
    · rcases ih h.2 hl hx with hlast | ⟨hlt, hmem⟩
      · exact .inl hlast
      · exact .inr ⟨hlt, List.mem_cons_of_mem c hmem⟩

theorem injective (h : Leads next a l a) (hnodup : (a :: l).Nodup) (hx : x ∈ a :: l)
    (hy : y ∈ a :: l) (heq : next x = next y) : x = y := by
  have hmap : ((a :: l).map next).Nodup := by
    rw [h.map_eq]
    exact List.nodup_append_comm.mp hnodup
  exact List.inj_on_of_nodup_map hmap hx hy heq

theorem rotate (h : Leads next a l a) (hx : x ∈ a :: l) :
    ∃ l', Leads next x l' x ∧ (x :: l').Perm (a :: l) := by
  rcases List.mem_cons.mp hx with rfl | hx
  · exact ⟨l, h, List.Perm.refl _⟩
  · obtain ⟨l₁, l₂, rfl⟩ := List.append_of_mem hx
    obtain ⟨h₁, h₂⟩ := append_iff.mp h
    refine ⟨l₂ ++ a :: l₁, append_iff.mpr ⟨h₂, h₁⟩, ?_⟩
    exact (List.perm_append_comm : (x :: l₂ ++ a :: l₁).Perm (a :: l₁ ++ x :: l₂))

variable [DecidableEq α]

theorem retarget (h : Leads next a l b) (hnodup : (a :: l).Nodup) (c : α) :
    Leads (Function.update next ((a :: l).getLast (List.cons_ne_nil a l)) c) a l c := by
  induction l generalizing a with
  | nil => exact Function.update_self a c next
  | cons d l ih =>
    obtain ⟨ha, hl⟩ := List.nodup_cons.mp hnodup
    have hne : a ≠ (a :: d :: l).getLast (List.cons_ne_nil a _) := by
      rw [List.getLast_cons (List.cons_ne_nil d l)]
      exact fun heq => ha (heq ▸ List.getLast_mem _)
    exact ⟨(Function.update_of_ne hne _ _).trans h.1, ih h.2 hl⟩

theorem restart (h : Leads next a l b) (hx : x ∉ l) :
    Leads (Function.update next x (next a)) x l b := by
  cases l with
  | nil => exact (Function.update_self x _ next).trans h
  | cons c l =>
    refine ⟨(Function.update_self x _ next).trans h.1, h.2.congr fun y hy => ?_⟩
    exact Function.update_of_ne (by rintro rfl; exact hx hy) _ _

theorem update (h : Leads next a l b) (hx : x ∉ a :: l) (c : α) :
    Leads (Function.update next x c) a l b :=
  h.congr fun y hy => Function.update_of_ne (by rintro rfl; exact hx hy) _ _

end leads

end Leads
