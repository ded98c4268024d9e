import Xv6.Fs.Dir
import Mathlib.Data.List.Basic
import Mathlib.Data.List.DropRight

/-! Path names as lists of components, and the cursor of `skipelem` over them. -/
namespace Xv6

/-- The maximal parts of a path without a slash, cut to `DIRSIZ` bytes. -/
def components (path : List UInt8) : List (List UInt8) :=
  ((path.splitOn 47).filter (· ≠ [])).map (·.take DIRSIZ)

/-- `skipelem` with the buffer of `DIRSIZ` bytes that it stores the element in. -/
def skipelemInto (path name : List UInt8) : Option (List UInt8 × List UInt8) :=
  let s := path.dropWhile (· = 47)
  if s = [] then none
  else
    let elem := s.takeWhile (· ≠ 47)
    let rest := (s.dropWhile (· ≠ 47)).dropWhile (· = 47)
    if elem.length ≥ DIRSIZ then some (elem.take DIRSIZ ++ name.drop DIRSIZ, rest)
    else some (elem ++ 0 :: name.drop (elem.length + 1), rest)

/-- The buffer with a component in it: a terminator follows only a component that leaves room. -/
def storeName (elem name : List UInt8) : List UInt8 :=
  if elem.length < DIRSIZ then elem ++ 0 :: name.drop (elem.length + 1) else elem

section path

variable {path rest name w l : List UInt8} {c : UInt8}

theorem splitOn_slash (l : List UInt8) : (47 :: l).splitOn 47 = [] :: l.splitOn 47 := by
  rw [List.splitOn, List.splitOnP_cons_eq_if_modifyHead, if_pos (by decide)]
  rfl

theorem splitOn_cons (h : c ≠ 47) (l : List UInt8) :
    (c :: l).splitOn 47 = (l.splitOn 47).modifyHead (c :: ·) := by
  rw [List.splitOn, List.splitOnP_cons_eq_if_modifyHead, if_neg (by simpa using h)]
  rfl

theorem splitOn_word (hw : 47 ∉ w) :
    w.splitOn 47 = [w] ∧ ∀ l, (w ++ 47 :: l).splitOn 47 = w :: l.splitOn 47 := by
  induction w with
  | nil => exact ⟨List.splitOn_nil 47, fun l => splitOn_slash l⟩
  | cons c w ih =>
    rw [List.mem_cons, not_or] at hw
    obtain ⟨h1, h2⟩ := ih hw.2
    refine ⟨?_, fun l => ?_⟩
    · rw [splitOn_cons (Ne.symm hw.1), h1, List.modifyHead_cons]
    · rw [List.cons_append, splitOn_cons (Ne.symm hw.1), h2, List.modifyHead_cons]

theorem components_slash (l : List UInt8) : components (47 :: l) = components l := by
  rw [components, splitOn_slash, List.filter_cons_of_neg (by simp), components]

theorem splitOn_append_slash (w l : List UInt8) :
    (w ++ 47 :: l).splitOn 47 = w.splitOn 47 ++ l.splitOn 47 := by
  induction w with
  | nil => rw [List.nil_append, splitOn_slash, List.splitOn_nil, List.singleton_append]
  | cons c w ih =>
    by_cases hc : c = 47
    · rw [hc, List.cons_append, splitOn_slash, splitOn_slash, ih, List.cons_append]
    · rw [List.cons_append, splitOn_cons hc, splitOn_cons hc, ih]
      cases hw : w.splitOn 47 with
      | nil => exact absurd hw (List.splitOnP_ne_nil _ _)
      | cons v vs => rfl

theorem components_append_slash (w l : List UInt8) :
    components (w ++ 47 :: l) = components w ++ components l := by
  rw [components, splitOn_append_slash, List.filter_append, List.map_append, components, components]

theorem components_replicate (k : ℕ) (l : List UInt8) :
    components (List.replicate k 47 ++ l) = components l := by
  induction k with
  | zero => rfl
  | succ k ih => rw [List.replicate_succ, List.cons_append, components_slash, ih]

/-- Further slashes beside a slash make no difference. -/
theorem components_slashes (w l : List UInt8) (k : ℕ) :
    components (w ++ List.replicate k 47 ++ 47 :: l) = components (w ++ 47 :: l) := by
  cases k with
  | zero => rw [List.replicate_zero, List.append_nil]
  | succ k =>
    rw [List.replicate_succ, List.append_assoc, List.cons_append, components_append_slash,
      components_replicate, components_slash, components_append_slash]

theorem components_trailing (w : List UInt8) (k : ℕ) :
    components (w ++ List.replicate k 47) = components w := by
  cases k with
  | zero => rw [List.replicate_zero, List.append_nil]
  | succ k =>
    have hnone := components_replicate k []
    rw [List.append_nil] at hnone
    rw [List.replicate_succ, components_append_slash, hnone]
    exact List.append_nil _

theorem components_dropWhile (path : List UInt8) :
    components (path.dropWhile (· = 47)) = components path := by
  induction path with
  | nil => rfl
  | cons c l ih =>
    by_cases hc : c = 47
    · rw [List.dropWhile_cons_of_pos (by simpa using hc), ih, hc, components_slash]
    · rw [List.dropWhile_cons_of_neg (by simpa using hc)]

theorem components_word (hw : 47 ∉ w) (hne : w ≠ []) (hl : l = [] ∨ ∃ r, l = 47 :: r) :
    components (w ++ l) = w.take DIRSIZ :: components l := by
  obtain ⟨h1, h2⟩ := splitOn_word hw
  rcases hl with rfl | ⟨r, rfl⟩
  · rw [List.append_nil, components, h1, List.filter_cons_of_pos (by simpa using hne)]
    rfl
  · rw [components_slash, components, h2, List.filter_cons_of_pos (by simpa using hne),
      List.map_cons, components]

/-- What `skipelem` finds. -/
theorem skipelem_spec (path : List UInt8) :
    (skipelem path = none ∧ components path = []) ∨
      ∃ name rest, skipelem path = some (name, rest) ∧
        components path = name :: components rest ∧ rest.dropWhile (· = 47) = rest ∧
        rest.length < path.length := by
  obtain ⟨s, hs⟩ : ∃ s, s = path.dropWhile (· = 47) := ⟨_, rfl⟩
  have hcomp : components s = components path := by rw [hs, components_dropWhile]
  unfold skipelem
  rw [← hs]
  dsimp only
  cases hcons : s with
  | nil =>
    rw [hcons] at hcomp
    exact Or.inl ⟨if_pos rfl, hcomp.symm⟩
  | cons c l =>
    have hc : c ≠ 47 := by
      have hhead := List.head?_dropWhile_not (· = (47 : UInt8)) path
      rw [← hs, hcons] at hhead
      simpa using hhead
    have hsplit := List.takeWhile_append_dropWhile (p := (· ≠ (47 : UInt8))) (l := c :: l)
    have hword : 47 ∉ (c :: l).takeWhile (· ≠ (47 : UInt8)) := fun hmem => by
      simpa using List.mem_takeWhile_imp hmem
    have hne : (c :: l).takeWhile (· ≠ (47 : UInt8)) ≠ [] := by
      rw [List.takeWhile_cons_of_pos (by simpa using hc)]
      simp
    have hend : (c :: l).dropWhile (· ≠ (47 : UInt8)) = [] ∨
        ∃ r, (c :: l).dropWhile (· ≠ (47 : UInt8)) = 47 :: r := by
      have hhead := List.head?_dropWhile_not (· ≠ (47 : UInt8)) (c :: l)
      cases hd : (c :: l).dropWhile (· ≠ (47 : UInt8)) with
      | nil => exact Or.inl rfl
      | cons a r =>
        rw [hd] at hhead
        refine Or.inr ⟨r, ?_⟩
        rw [show a = 47 by simpa using hhead]
    refine Or.inr ⟨_, _, if_neg (by simp), ?_, List.dropWhile_idempotent .., ?_⟩
    · rw [← hcomp, hcons, components_dropWhile, ← components_word hword hne hend, hsplit]
    · have h1 := List.length_dropWhile_le (· = (47 : UInt8))
        ((c :: l).dropWhile (· ≠ (47 : UInt8)))
      have h2 := congrArg List.length hsplit
      have h3 := List.length_pos_iff.mpr hne
      have h4 := List.length_dropWhile_le (· = (47 : UInt8)) path
      rw [← hs, hcons] at h4
      rw [List.length_append] at h2
      omega

theorem skipelemInto_eq (path : List UInt8) (hname : name.length = DIRSIZ) :
    skipelemInto path name = (skipelem path).map fun q => (storeName q.1 name, q.2) := by
  unfold skipelemInto skipelem
  dsimp only
  by_cases hs : path.dropWhile (· = 47) = []
  · rw [if_pos hs, if_pos hs, Option.map_none]
  · rw [if_neg hs, if_neg hs, Option.map_some, storeName, List.length_take]
    by_cases hlen : ((path.dropWhile (· = 47)).takeWhile (· ≠ 47)).length ≥ DIRSIZ
    · rw [if_pos hlen, if_neg (by omega), ← hname, List.drop_length, List.append_nil]
    · rw [if_neg hlen, if_pos (by omega), List.take_of_length_le (by omega),
        min_eq_right (by omega)]

theorem components_eq_nil (h : path.dropWhile (· = 47) = path) :
    components path = [] ↔ path = [] := by
  constructor
  · intro hc
    rcases skipelem_spec path with ⟨hnone, -⟩ | ⟨name, rest, -, hcons, -⟩
    · unfold skipelem at hnone
      rw [h] at hnone
      by_contra hne
      simp [hne] at hnone
    · rw [hcons] at hc
      cases hc
  · rintro rfl
    rfl

end path

end Xv6
