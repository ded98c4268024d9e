import Xv6.Grep.Code
import Mathlib.Computability.Language

/-! The matcher of `grep.c` decides the language that a pattern stands for. -/
namespace Xv6.Grep

/-- An item of a pattern: a character, or a character with a star. -/
inductive Item where
  | one (c : UInt8)
  | many (c : UInt8)
  deriving DecidableEq, Repr

/-- A character of a pattern stands for itself, and a dot for any character. -/
def Fits (c t : UInt8) : Prop := c = dot ∨ c = t

def charLanguage (c : UInt8) : Language UInt8 := {v | ∃ t, v = [t] ∧ Fits c t}

def Item.language : Item → Language UInt8
  | .one c => charLanguage c
  | .many c => KStar.kstar (charLanguage c)

/-- The items of a pattern, from left to right; a dollar at the end is not one. -/
def items : List UInt8 → List Item
  | [] => []
  | [c] => if c = dollar then [] else [.one c]
  | c :: d :: re => if d = star then .many c :: items re else .one c :: items (d :: re)

/-- The pattern ends with a dollar that asks for the end of the text. -/
def endAnchored : List UInt8 → Bool
  | [] => false
  | [c] => c = dollar
  | _ :: d :: re => if d = star then endAnchored re else endAnchored (d :: re)

def patternLanguage (re : List UInt8) : Language UInt8 := ((items re).map Item.language).prod

section matcher

variable {c : UInt8} {v : List UInt8}

theorem mem_charLanguage : v ∈ charLanguage c ↔ ∃ t, v = [t] ∧ Fits c t := Iff.rfl

theorem mem_kstar_charLanguage :
    v ∈ KStar.kstar (charLanguage c) ↔ ∀ t ∈ v, Fits c t := by
  constructor
  · rintro ⟨L, rfl, hL⟩ t ht
    obtain ⟨y, hy, hty⟩ := List.mem_flatten.mp ht
    obtain ⟨t', rfl, hfit⟩ := hL y hy
    rw [List.mem_singleton] at hty
    rw [hty]
    exact hfit
  · intro h
    refine ⟨v.map fun t => [t], ?_, ?_⟩
    · rw [← List.flatMap_def, List.flatMap_singleton']
    · intro y hy
      obtain ⟨t, ht, rfl⟩ := List.mem_map.mp hy
      exact ⟨t, rfl, h t ht⟩

/-- `matchstar` tries every run of characters that fit. -/
theorem matchstar_iff (here : List UInt8 → Bool) (c : UInt8) (text : List UInt8) :
    matchstar here c text = true ↔
      ∃ a b, text = a ++ b ∧ (∀ t ∈ a, Fits c t) ∧ here b = true := by
  induction text with
  | nil =>
    rw [matchstar]
    constructor
    · exact fun h => ⟨[], [], rfl, by simp, h⟩
    · rintro ⟨a, b, hab, -, hb⟩
      obtain ⟨-, rfl⟩ := List.append_eq_nil_iff.mp hab.symm
      exact hb
  | cons t text ih =>
    have hstep : (t == c || c == dot) = true ↔ Fits c t := by
      rw [Bool.or_eq_true, beq_iff_eq, beq_iff_eq, Fits, or_comm, eq_comm (a := t)]
    rw [matchstar, Bool.or_eq_true, Bool.and_eq_true, hstep, ih]
    constructor
    · rintro (h | ⟨hfit, a, b, rfl, ha, hb⟩)
      · exact ⟨[], t :: text, rfl, by simp, h⟩
      · exact ⟨t :: a, b, rfl, List.forall_mem_cons.mpr ⟨hfit, ha⟩, hb⟩
    · rintro ⟨a, b, hab, ha, hb⟩
      cases a with
      | nil =>
        rw [List.nil_append] at hab
        rw [hab]
        exact Or.inl hb
      | cons x a =>
        rw [List.cons_append, List.cons.injEq] at hab
        obtain ⟨rfl, rfl⟩ := hab
        obtain ⟨hfit, ha⟩ := List.forall_mem_cons.mp ha
        exact Or.inr ⟨hfit, a, b, rfl, ha, hb⟩

theorem patternLanguage_cons (it : Item) (rest : List Item) :
    v ∈ ((it :: rest).map Item.language).prod ↔
      ∃ a b, v = a ++ b ∧ a ∈ it.language ∧ b ∈ (rest.map Item.language).prod := by
  rw [List.map_cons, List.prod_cons, Language.mem_mul]
  constructor
  · rintro ⟨a, ha, b, hb, rfl⟩
    exact ⟨a, b, rfl, ha, hb⟩
  · rintro ⟨a, b, rfl, ha, hb⟩
    exact ⟨a, ha, b, hb, rfl⟩

/-- The text begins with a text of the pattern, and ends with it if the pattern asks for that. -/
def Begins (re text : List UInt8) : Prop :=
  ∃ v w, text = v ++ w ∧ v ∈ patternLanguage re ∧ (endAnchored re = true → w = [])

theorem begins_nil (text : List UInt8) : Begins [] text :=
  ⟨[], text, rfl, rfl, fun h => by cases h⟩

theorem begins_many (c : UInt8) (re text : List UInt8) :
    Begins (c :: star :: re) text ↔
      ∃ a b, text = a ++ b ∧ (∀ t ∈ a, Fits c t) ∧ Begins re b := by
  have hitems : items (c :: star :: re) = .many c :: items re := by rw [items, if_pos rfl]
  have hend : endAnchored (c :: star :: re) = endAnchored re := by rw [endAnchored, if_pos rfl]
  unfold Begins patternLanguage
  rw [hitems, hend]
  constructor
  · rintro ⟨v, w, rfl, hv, hw⟩
    obtain ⟨a, b, rfl, ha, hb⟩ := (patternLanguage_cons _ _).mp hv
    exact ⟨a, b ++ w, List.append_assoc .., mem_kstar_charLanguage.mp ha, b, w, rfl, hb, hw⟩
  · rintro ⟨a, b, rfl, ha, v, w, rfl, hv, hw⟩
    refine ⟨a ++ v, w, (List.append_assoc ..).symm, ?_, hw⟩
    exact (patternLanguage_cons _ _).mpr ⟨a, v, rfl, mem_kstar_charLanguage.mpr ha, hv⟩

theorem begins_one {c d : UInt8} (hd : d ≠ star) (re text : List UInt8) :
    Begins (c :: d :: re) text ↔ ∃ t rest, text = t :: rest ∧ Fits c t ∧ Begins (d :: re) rest := by
  have hitems : items (c :: d :: re) = .one c :: items (d :: re) := by rw [items, if_neg hd]
  have hend : endAnchored (c :: d :: re) = endAnchored (d :: re) := by rw [endAnchored, if_neg hd]
  unfold Begins patternLanguage
  rw [hitems, hend]
  constructor
  · rintro ⟨v, w, rfl, hv, hw⟩
    obtain ⟨a, b, rfl, ⟨t, rfl, ht⟩, hb⟩ := (patternLanguage_cons _ _).mp hv
    exact ⟨t, b ++ w, rfl, ht, b, w, rfl, hb, hw⟩
  · rintro ⟨t, rest, rfl, ht, v, w, rfl, hv, hw⟩
    exact ⟨t :: v, w, rfl, (patternLanguage_cons _ _).mpr ⟨[t], v, rfl, ⟨t, rfl, ht⟩, hv⟩, hw⟩

theorem begins_dollar (text : List UInt8) : Begins [dollar] text ↔ text = [] := by
  constructor
  · rintro ⟨v, w, rfl, hv, hw⟩
    have hv' : v = [] := hv
    rw [hv', hw rfl]
    rfl
  · rintro rfl
    exact ⟨[], [], rfl, rfl, fun _ => rfl⟩

theorem begins_single (hc : c ≠ dollar) (text : List UInt8) :
    Begins [c] text ↔ ∃ t rest, text = t :: rest ∧ Fits c t := by
  have hitems : items [c] = [.one c] := by rw [items, if_neg hc]
  have hend : endAnchored [c] = false := by simp [endAnchored, hc]
  unfold Begins patternLanguage
  rw [hitems, hend, List.map_singleton, List.prod_singleton]
  constructor
  · rintro ⟨v, w, rfl, ⟨t, rfl, ht⟩, -⟩
    exact ⟨t, w, rfl, ht⟩
  · rintro ⟨t, rest, rfl, ht⟩
    exact ⟨[t], rest, rfl, ⟨t, rfl, ht⟩, fun h => by cases h⟩

theorem matchhere_iff (re text : List UInt8) : matchhere re text = true ↔ Begins re text := by
  induction re using List.twoStepInduction generalizing text with
  | nil => exact iff_of_true (by rw [matchhere]) (begins_nil text)
  | singleton c =>
    by_cases hc : c = dollar
    · rw [hc, begins_dollar]
      cases text with
      | nil => simp [matchhere]
      | cons t text => simp [matchhere]
    · rw [begins_single hc]
      cases text with
      | nil => simp [matchhere, hc]
      | cons t text => simp [matchhere, hc, Fits]
  | cons_cons c d re ih ih' =>
    by_cases hd : d = star
    · have hstep : matchhere (c :: star :: re) text = matchstar (matchhere re) c text := by
        cases text <;> simp [matchhere]
      rw [hd, hstep, matchstar_iff, begins_many]
      simp only [ih]
    · rw [begins_one hd]
      cases text with
      | nil => simp [matchhere, hd]
      | cons t text => simp [matchhere, hd, Fits, ih']

theorem matchAnywhere_iff (re text : List UInt8) :
    matchAnywhere re text = true ↔ ∃ u rest, text = u ++ rest ∧ Begins re rest := by
  induction text with
  | nil =>
    rw [matchAnywhere, matchhere_iff]
    constructor
    · exact fun h => ⟨[], [], rfl, h⟩
    · rintro ⟨u, rest, hur, h⟩
      obtain ⟨-, rfl⟩ := List.append_eq_nil_iff.mp hur.symm
      exact h
  | cons t text ih =>
    rw [matchAnywhere, Bool.or_eq_true, matchhere_iff, ih]
    constructor
    · rintro (h | ⟨u, rest, rfl, h⟩)
      · exact ⟨[], t :: text, rfl, h⟩
      · exact ⟨t :: u, rest, rfl, h⟩
    · rintro ⟨u, rest, hur, h⟩
      cases u with
      | nil =>
        rw [List.nil_append] at hur
        rw [hur]
        exact Or.inl h
      | cons x u =>
        rw [List.cons_append, List.cons.injEq] at hur
        obtain ⟨-, rfl⟩ := hur
        exact Or.inr ⟨u, rest, rfl, h⟩

end matcher

def body (re : List UInt8) : List UInt8 := if re.head? = some caret then re.tail else re

/-- `match` decides whether a part of the text is in the language of the pattern. -/
theorem matchText_iff_language (re text : List UInt8) :
    matchText re text = true ↔ ∃ u v w, text = u ++ v ++ w ∧
      v ∈ patternLanguage (body re) ∧ (re.head? = some caret → u = []) ∧
      (endAnchored (body re) = true → w = []) := by
  have hany : re.head? ≠ some caret → (matchAnywhere re text = true ↔
      ∃ u v w, text = u ++ v ++ w ∧ v ∈ patternLanguage re ∧ (re.head? = some caret → u = []) ∧
        (endAnchored re = true → w = [])) := by
    intro hne
    rw [matchAnywhere_iff]
    constructor
    · rintro ⟨u, rest, rfl, v, w, rfl, hv, hw⟩
      exact ⟨u, v, w, (List.append_assoc ..).symm, hv, fun h => absurd h hne, hw⟩
    · rintro ⟨u, v, w, rfl, hv, -, hw⟩
      exact ⟨u, v ++ w, List.append_assoc .., v, w, rfl, hv, hw⟩
  cases re with
  | nil =>
    have hbody : body [] = [] := rfl
    rw [hbody, matchText]
    exact hany (by simp)
  | cons c re =>
    rw [matchText]
    by_cases hc : c = caret
    · have hbody : body (c :: re) = re := by
        rw [body, hc]
        rfl
      rw [if_pos hc, hbody, matchhere_iff]
      constructor
      · rintro ⟨v, w, rfl, hv, hw⟩
        exact ⟨[], v, w, rfl, hv, fun _ => rfl, hw⟩
      · rintro ⟨u, v, w, rfl, hv, hu, hw⟩
        have hnil := hu (by rw [hc]; rfl)
        rw [hnil]
        exact ⟨v, w, rfl, hv, hw⟩
    · have hne : (c :: re).head? ≠ some caret := fun h => hc (Option.some.inj h)
      have hbody : body (c :: re) = c :: re := by rw [body, if_neg hne]
      rw [if_neg hc, hbody]
      exact hany hne

end Xv6.Grep
