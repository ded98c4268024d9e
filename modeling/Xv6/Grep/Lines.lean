import Mathlib.Data.List.TakeWhile
import Xv6.Grep.Code

/-! The lines of an input, and when `grep` prints the matching ones. -/
namespace Xv6.Grep

/-- The newline-terminated lines of `cur ++ input`, for `cur` without a newline, and the rest. -/
def linesFrom (cur : List UInt8) : List UInt8 → List (List UInt8) × List UInt8
  | [] => ([], cur)
  | c :: input =>
    if c = newline then (cur :: (linesFrom [] input).1, (linesFrom [] input).2)
    else linesFrom (cur ++ [c]) input

def printed (pattern : List UInt8) (ls : List (List UInt8)) : List UInt8 :=
  (ls.filter (matchText pattern)).flatMap (· ++ [newline])

/-- What the loop over the lines leaves of them in the buffer. -/
def marked (pattern : List UInt8) (ls : List (List UInt8)) : List UInt8 :=
  ls.flatMap fun l => l ++ [if matchText pattern l then newline else 0]

theorem linesFrom_append (cur a b : List UInt8) :
    linesFrom cur (a ++ b) = ((linesFrom cur a).1 ++ (linesFrom (linesFrom cur a).2 b).1,
      (linesFrom (linesFrom cur a).2 b).2) := by
  induction a generalizing cur with
  | nil => rfl
  | cons c a ih =>
    rw [List.cons_append, linesFrom, linesFrom]
    by_cases hc : c = newline
    · rw [if_pos hc, if_pos hc, ih]
      rfl
    · rw [if_neg hc, if_neg hc, ih]

theorem linesFrom_of_notMem (cur : List UInt8) {a : List UInt8} (h : newline ∉ a) :
    linesFrom cur a = ([], cur ++ a) := by
  induction a generalizing cur with
  | nil => rw [List.append_nil, linesFrom]
  | cons c a ih =>
    rw [List.mem_cons, not_or] at h
    rw [linesFrom, if_neg fun hc => h.1 hc.symm, ih _ h.2, List.append_assoc, List.singleton_append]

theorem linesFrom_eq_append {cur : List UInt8} (a : List UInt8) (h : newline ∉ cur) :
    linesFrom [] (cur ++ a) = linesFrom cur a := by
  rw [linesFrom_append, linesFrom_of_notMem [] h]
  rfl

theorem newline_notMem_tail {cur : List UInt8} (h : newline ∉ cur) (a : List UInt8) :
    newline ∉ (linesFrom cur a).2 := by
  induction a generalizing cur with
  | nil => exact h
  | cons c a ih =>
    rw [linesFrom]
    by_cases hc : c = newline
    · rw [if_pos hc]
      exact ih List.not_mem_nil
    · rw [if_neg hc]
      refine ih fun hm => (List.mem_append.mp hm).elim h fun hm => ?_
      exact hc (List.mem_singleton.mp hm).symm

theorem linesFrom_join (cur a : List UInt8) :
    (linesFrom cur a).1.flatMap (· ++ [newline]) ++ (linesFrom cur a).2 = cur ++ a := by
  induction a generalizing cur with
  | nil => simp [linesFrom]
  | cons c a ih =>
    rw [linesFrom]
    by_cases hc : c = newline
    · rw [if_pos hc, List.flatMap_cons, List.append_assoc, ih, hc]
      simp
    · rw [if_neg hc, ih]
      simp

theorem length_tail_lt (cur : List UInt8) {a : List UInt8} (h : newline ∈ a) :
    (linesFrom cur a).2.length < a.length := by
  induction a generalizing cur with
  | nil => exact absurd h List.not_mem_nil
  | cons c a ih =>
    rw [linesFrom, List.length_cons]
    by_cases hc : c = newline
    · have hjoin := congrArg List.length (linesFrom_join [] a)
      rw [List.length_append, List.nil_append] at hjoin
      rw [if_pos hc]
      dsimp only
      omega
    · rw [if_neg hc]
      have := ih (cur ++ [c]) (List.mem_of_ne_of_mem (Ne.symm hc) h)
      omega

def firstLine (a : List UInt8) : List UInt8 := a.takeWhile (· ≠ newline)

theorem newline_notMem_firstLine (a : List UInt8) : newline ∉ firstLine a := fun hm => by
  have hne := List.mem_takeWhile_imp hm
  simp at hne

theorem firstLine_append {a : List UInt8} (h : newline ∉ a) (b : List UInt8) :
    firstLine (a ++ b) = a ++ firstLine b := by
  refine List.takeWhile_append_of_pos fun c hc => ?_
  have hne : c ≠ newline := fun he => h (he ▸ hc)
  simpa using hne

theorem firstLine_append_of_mem {a : List UInt8} (h : newline ∈ a) (b : List UInt8) :
    firstLine (a ++ b) = firstLine a := by
  obtain ⟨l, r, rfl, hl⟩ := List.eq_append_cons_of_mem h
  have hcut : ∀ r, firstLine (newline :: r) = [] := fun r => List.takeWhile_cons_of_neg (by simp)
  rw [List.append_assoc, firstLine_append hl, firstLine_append hl, List.cons_append, hcut, hcut]

theorem linesFrom_of_mem (cur : List UInt8) {a : List UInt8} (h : newline ∈ a) :
    ∃ ls, (linesFrom cur a).1 = (cur ++ firstLine a) :: ls := by
  obtain ⟨l, r, rfl, hl⟩ := List.eq_append_cons_of_mem h
  refine ⟨(linesFrom [] r).1, ?_⟩
  rw [linesFrom_append, linesFrom_of_notMem cur hl, firstLine_append hl, linesFrom, if_pos rfl,
    firstLine, List.takeWhile_cons_of_neg (by simp), List.append_nil]
  rfl

theorem length_marked (pattern : List UInt8) (ls : List (List UInt8)) :
    (marked pattern ls).length = (ls.flatMap (· ++ [newline])).length := by
  simp [marked, List.length_flatMap]

/-! The loop over the lines. -/

theorem strchr_append {l : List UInt8} (s : List UInt8) (h0 : 0 ∉ l) (hl : newline ∉ l) :
    strchr newline (l ++ s) = (strchr newline s).map (Option.map (· + l.length)) := by
  induction l with
  | nil =>
    rw [List.nil_append]
    cases strchr newline s with
    | none => rfl
    | some r => cases r <;> rfl
  | cons c l ih =>
    rw [List.mem_cons, not_or] at h0 hl
    rw [List.cons_append, strchr, if_neg fun hc => h0.1 hc.symm, if_neg fun hc => hl.1 hc.symm,
      ih h0.2 hl.2]
    cases strchr newline s with
    | none => rfl
    | some r => cases r <;> rfl

theorem lineLoop_line (pattern : List UInt8) (fuel : ℕ) (before rest out : List UInt8)
    {l : List UInt8} (h0 : 0 ∉ l) (hl : newline ∉ l) :
    lineLoop pattern (fuel + 1) before (l ++ newline :: rest) out =
      lineLoop pattern fuel (before ++ marked pattern [l]) rest (out ++ printed pattern [l]) := by
  have hq : strchr newline (l ++ newline :: rest) = some (some l.length) := by
    rw [strchr_append _ h0 hl, strchr, if_neg (by decide), if_pos rfl]
    exact congrArg (fun n => some (some n)) (Nat.zero_add _)
  have htake : (l ++ newline :: rest).take l.length = l := List.take_left' rfl
  have hdrop : (l ++ newline :: rest).drop (l.length + 1) = rest := by
    rw [← List.drop_drop, List.drop_left' rfl]
    rfl
  rw [lineLoop, hq]
  dsimp only
  rw [htake, hdrop]
  by_cases hm : matchText pattern l = true
  · rw [if_pos hm]
    simp [marked, printed, hm]
  · rw [if_neg hm]
    simp [marked, printed, hm]

theorem lineLoop_lines (pattern : List UInt8) (S : List UInt8) {cur X : List UInt8} (hc0 : 0 ∉ cur)
    (hcn : newline ∉ cur) (hX : 0 ∉ X) (fuel : ℕ) (before out : List UInt8) :
    lineLoop pattern (fuel + (linesFrom cur X).1.length) before (cur ++ (X ++ S)) out =
      lineLoop pattern fuel (before ++ marked pattern (linesFrom cur X).1)
        ((linesFrom cur X).2 ++ S) (out ++ printed pattern (linesFrom cur X).1) := by
  induction X generalizing cur before out with
  | nil => simp [linesFrom, marked, printed]
  | cons c X ih =>
    rw [List.mem_cons, not_or] at hX
    rw [linesFrom]
    by_cases hc : c = newline
    · rw [if_pos hc, hc, List.cons_append, List.length_cons, ← add_assoc,
        lineLoop_line pattern _ _ _ _ hc0 hcn]
      have := ih List.not_mem_nil List.not_mem_nil hX.2 (before ++ marked pattern [cur])
        (out ++ printed pattern [cur])
      rw [List.nil_append] at this
      rw [this, List.append_assoc, List.append_assoc]
      congr 1
      · simp [marked]
      · rw [printed, printed, printed, ← List.flatMap_append, ← List.filter_append,
          List.singleton_append]
    · have hsnoc : cur ++ (c :: X ++ S) = cur ++ [c] ++ (X ++ S) := by simp
      rw [if_neg hc, hsnoc]
      refine ih (fun hm => ?_) (fun hm => ?_) hX.2 before out
      · exact (List.mem_append.mp hm).elim hc0 fun hm => hX.1 (List.mem_singleton.mp hm)
      · exact (List.mem_append.mp hm).elim hcn fun hm => hc (List.mem_singleton.mp hm).symm

theorem length_lines_le (cur X : List UInt8) : (linesFrom cur X).1.length ≤ X.length := by
  induction X generalizing cur with
  | nil => exact Nat.le_refl 0
  | cons c X ih =>
    rw [linesFrom]
    by_cases hc : c = newline
    · rw [if_pos hc, List.length_cons, List.length_cons]
      exact Nat.succ_le_succ (ih _)
    · rw [if_neg hc, List.length_cons]
      exact Nat.le_succ_of_le (ih _)

/-- After a text `X`, the rest `S` of the buffer decides: the search finds a NUL in it before a
newline, or it leaves the buffer. -/
theorem lineLoop_text (pattern : List UInt8) {X : List UInt8} (S out : List UInt8) (hX : 0 ∉ X)
    (hS : ∀ q, strchr newline S ≠ some (some q)) :
    lineLoop pattern ((X ++ S).length + 1) [] (X ++ S) out =
      if strchr newline S = none then none
      else some (marked pattern (linesFrom [] X).1, (linesFrom [] X).2 ++ S,
        out ++ printed pattern (linesFrom [] X).1) := by
  have hle := length_lines_le [] X
  have hlen : (X ++ S).length = X.length + S.length := List.length_append
  obtain ⟨fuel, hfuel⟩ : ∃ fuel, (X ++ S).length + 1 = fuel + 1 + (linesFrom [] X).1.length :=
    ⟨(X ++ S).length - (linesFrom [] X).1.length, by omega⟩
  have hrun := lineLoop_lines pattern S List.not_mem_nil List.not_mem_nil hX (fuel + 1) [] out
  have hjoin := linesFrom_join [] X
  have htail0 : 0 ∉ (linesFrom [] X).2 := fun hm => hX (by
    rw [← List.nil_append X, ← hjoin]
    exact List.mem_append_right _ hm)
  rw [List.nil_append] at hrun
  rw [hfuel, hrun, lineLoop, strchr_append S htail0 (newline_notMem_tail List.not_mem_nil X)]
  cases hs : strchr newline S with
  | none => rfl
  | some r =>
    cases r with
    | none => rfl
    | some q => exact absurd hs (hS q)

end Xv6.Grep
