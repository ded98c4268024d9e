import Mathlib.Data.List.Induction
import Mathlib.Data.List.Nodup
import Mathlib.Logic.Function.Basic

/-! Circular doubly linked lists with a list head, as two pointer maps, and the list of
their elements. -/

structure Links (α : Type*) where
  next : α → α
  prev : α → α

namespace Links

variable {α : Type*}

/-- Following `next` from `a` visits the nodes of `l` and then `b`, and `prev` leads back. -/
def Seg (k : Links α) : α → List α → α → Prop
  | a, [], b => k.next a = b ∧ k.prev b = a
  | a, x :: l, b => k.next a = x ∧ k.prev x = a ∧ k.Seg x l b

/-- The nodes of `l` in order form one circle with the list head `h`, none twice. -/
def Ring (k : Links α) (h : α) (l : List α) : Prop := k.Seg h l h ∧ (h :: l).Nodup

theorem seg_append {k : Links α} {a b x : α} {l m : List α} :
    k.Seg a (l ++ x :: m) b ↔ k.Seg a l x ∧ k.Seg x m b := by
  induction l generalizing a with
  | nil => simp [Seg, and_assoc]
  | cons y l ih => simp [Seg, ih, and_assoc]

theorem Seg.congr {k k' : Links α} {a b : α} {l : List α} (h : k.Seg a l b)
    (hn : ∀ x ∈ a :: l, k'.next x = k.next x) (hp : ∀ x ∈ l ++ [b], k'.prev x = k.prev x) :
    k'.Seg a l b := by
  induction l generalizing a with
  | nil =>
    have h1 := hn a (by simp)
    have h2 := hp b (by simp)
    exact ⟨h1.trans h.1, h2.trans h.2⟩
  | cons y l ih =>
    have h1 := hn a (by simp)
    have h2 := hp y (by simp)
    refine ⟨h1.trans h.1, h2.trans h.2.1, ih h.2.2 ?_ ?_⟩
    · exact fun x hx => hn x (List.mem_cons_of_mem a hx)
    · exact fun x hx => hp x (List.mem_cons_of_mem y hx)

theorem Seg.next_mem {k : Links α} {a b : α} {l : List α} (h : k.Seg a l b) :
    k.next a ∈ l ++ [b] := by
  cases l with
  | nil => simp [h.1]
  | cons y l => simp [h.1]

theorem Seg.prev_mem {k : Links α} {a b : α} {l : List α} (h : k.Seg a l b) :
    k.prev b ∈ a :: l := by
  induction l generalizing a with
  | nil => simp [h.2]
  | cons y l ih => exact List.mem_cons_of_mem a (ih h.2.2)

theorem ring_empty (h : α) : Ring ⟨fun _ => h, fun _ => h⟩ h [] :=
  ⟨⟨rfl, rfl⟩, by simp⟩

section Updates

variable [DecidableEq α]

def setNext (k : Links α) (a b : α) : Links α := { k with next := Function.update k.next a b }

def setPrev (k : Links α) (a b : α) : Links α := { k with prev := Function.update k.prev a b }

def unlink (k : Links α) (b : α) : Links α :=
  let k := k.setPrev (k.next b) (k.prev b)
  k.setNext (k.prev b) (k.next b)

def pushFront (k : Links α) (h b : α) : Links α :=
  let k := k.setNext b (k.next h)
  let k := k.setPrev b h
  let k := k.setPrev (k.next h) b
  k.setNext h b

theorem unlink_next {k : Links α} {b x : α} (hb : k.next b ≠ b) (hx : x ≠ k.prev b) :
    (k.unlink b).next x = k.next x := by
  simp [unlink, setNext, setPrev, Function.update_of_ne hb.symm, Function.update_of_ne hx]

theorem unlink_next_prev {k : Links α} {b : α} (hb : k.next b ≠ b) :
    (k.unlink b).next (k.prev b) = k.next b := by
  simp [unlink, setNext, setPrev, Function.update_of_ne hb.symm]

theorem unlink_prev {k : Links α} {b x : α} (hx : x ≠ k.next b) :
    (k.unlink b).prev x = k.prev x := by
  simp [unlink, setNext, setPrev, Function.update_of_ne hx]

theorem unlink_prev_next (k : Links α) (b : α) : (k.unlink b).prev (k.next b) = k.prev b := by
  simp [unlink, setNext, setPrev]

theorem Seg.unlink {k : Links α} {a b e : α} {l m : List α} (h : k.Seg a (l ++ b :: m) e)
    (hnd : (a :: (l ++ b :: m)).Nodup) (he : e ∉ l ++ b :: m) :
    (k.unlink b).Seg a (l ++ m) e := by
  induction l generalizing a with
  | nil =>
    obtain ⟨-, hp, hm⟩ := h
    have hnb : k.next b ≠ b := by
      have hmem := hm.next_mem
      intro hb
      rw [hb] at hmem
      simp at hnd he hmem
      tauto
    have hna : (k.unlink b).next a = k.next b := by rw [← hp]; exact unlink_next_prev hnb
    have hpn : (k.unlink b).prev (k.next b) = a := (unlink_prev_next k b).trans hp
    simp only [List.nil_append, List.nodup_cons, List.mem_cons, not_or] at hnd he ⊢
    cases m with
    | nil => exact ⟨hna.trans hm.1, hm.1 ▸ hpn⟩
    | cons n m =>
      have hn : k.next b = n := hm.1
      refine ⟨hna.trans hn, hn ▸ hpn, hm.2.2.congr ?_ ?_⟩
      · intro x hx
        apply unlink_next hnb
        rintro rfl
        exact hnd.1.2 (hp ▸ hx)
      · intro x hx
        apply unlink_prev
        rintro rfl
        rw [hn] at hx
        simp only [List.mem_cons, List.nodup_cons, not_or, List.mem_append,
          List.not_mem_nil, or_false] at hnd he hx
        rcases hx with hx | hx
        · exact hnd.2.2.1 hx
        · exact he.2.1 hx.symm
  | cons x l ih =>
    obtain ⟨hn, hp, hx⟩ := h
    have hseg := (seg_append.mp hx)
    have hpb := hseg.1.prev_mem
    have hnb := hseg.2.next_mem
    simp only [List.cons_append, List.nodup_cons, List.mem_cons, List.mem_append, not_or]
      at hnd he hpb hnb
    refine ⟨?_, ?_, ih hx ?_ ?_⟩
    · rw [unlink_next, hn]
      · rintro hb
        rw [hb] at hnb
        simp only [List.not_mem_nil, or_false] at hnb
        rcases hnb with hb' | hb'
        · exact (List.nodup_cons.mp (List.nodup_append.mp hnd.2.2).2.1).1 hb'
        · exact he.2.2.1 hb'.symm
      · rintro rfl
        rcases hpb with hb | hb
        · exact hnd.1.1 hb
        · exact hnd.1.2.1 hb
    · rw [unlink_prev, hp]
      rintro rfl
      simp only [List.not_mem_nil, or_false] at hnb
      rcases hnb with hb | hb
      · exact hnd.2.1.2.2 hb
      · exact he.1 hb.symm
    · simp only [List.nodup_cons, List.mem_append, List.mem_cons, not_or]
      exact hnd.2
    · simp only [List.mem_append, List.mem_cons, not_or]
      exact he.2

theorem Ring.unlink {k : Links α} {h b : α} {l m : List α} (hk : k.Ring h (l ++ b :: m)) :
    (k.unlink b).Ring h (l ++ m) := by
  refine ⟨hk.1.unlink hk.2 (List.nodup_cons.mp hk.2).1, ?_⟩
  exact List.Nodup.sublist (by simp) hk.2

theorem Ring.pushFront {k : Links α} {h b : α} {l : List α} (hk : k.Ring h l)
    (hb : b ∉ h :: l) : (k.pushFront h b).Ring h (b :: l) := by
  obtain ⟨hseg, hnd⟩ := hk
  have hmem := hseg.next_mem
  simp only [List.mem_cons, not_or] at hb
  have hnb : k.next h ≠ b := by
    intro he
    rw [he] at hmem
    simp at hmem
    rcases hmem with hmem | hmem
    · exact hb.2 hmem
    · exact hb.1 hmem
  have hnh : (k.pushFront h b).next h = b := by simp [Links.pushFront, setNext, setPrev]
  have hpb : (k.pushFront h b).prev b = h := by
    simp [Links.pushFront, setNext, setPrev, Function.update_of_ne (Ne.symm hb.1),
      Function.update_of_ne hnb.symm]
  have hnb' : (k.pushFront h b).next b = k.next h := by
    simp [Links.pushFront, setNext, setPrev, Function.update_of_ne hb.1]
  have hpn : (k.pushFront h b).prev (k.next h) = b := by
    simp [Links.pushFront, setNext, setPrev, Function.update_of_ne (Ne.symm hb.1)]
  have hnext : ∀ x, x ≠ b → x ≠ h → (k.pushFront h b).next x = k.next x := by
    intro x hxb hxh
    simp [Links.pushFront, setNext, setPrev, Function.update_of_ne hxb, Function.update_of_ne hxh]
  have hprev : ∀ x, x ≠ b → x ≠ k.next h → (k.pushFront h b).prev x = k.prev x := by
    intro x hxb hxn
    simp [Links.pushFront, setNext, setPrev, Function.update_of_ne hxb,
      Function.update_of_ne (Ne.symm hb.1), Function.update_of_ne hxn]
  refine ⟨⟨hnh, hpb, ?_⟩, ?_⟩
  · cases l with
    | nil =>
      have hh : k.next h = h := hseg.1
      rw [hh] at hnb' hpn
      exact ⟨hnb', hpn⟩
    | cons x l =>
      have hx : k.next h = x := hseg.1
      rw [hx] at hnb' hpn
      refine ⟨hnb', hpn, hseg.2.2.congr ?_ ?_⟩
      · intro y hy
        apply hnext
        · rintro rfl
          exact hb.2 hy
        · rintro rfl
          exact (List.nodup_cons.mp hnd).1 hy
      · intro y hy
        simp only [List.mem_cons, List.nodup_cons, not_or, List.mem_append, List.not_mem_nil,
          or_false] at hb hnd hy
        apply hprev
        · rintro rfl
          rcases hy with hy | hy
          · exact hb.2.2 hy
          · exact hb.1 hy
        · rw [hx]
          rintro rfl
          rcases hy with hy | hy
          · exact hnd.2.1 hy
          · exact hnd.1.1 hy.symm
  · simp only [List.nodup_cons, List.mem_cons, not_or] at hnd ⊢
    exact ⟨⟨Ne.symm hb.1, hnd.1⟩, hb.2, hnd.2⟩

theorem ring_foldl_pushFront {k : Links α} {h : α} {l : List α} (bs : List α) (hk : k.Ring h l)
    (hbs : (bs ++ h :: l).Nodup) :
    (bs.foldl (fun k b => k.pushFront h b) k).Ring h (bs.reverse ++ l) := by
  induction bs generalizing k l with
  | nil => exact hk
  | cons b bs ih =>
    simp only [List.cons_append, List.nodup_cons, List.mem_append, not_or] at hbs
    have hpush := hk.pushFront hbs.1.2
    have hnd : (bs ++ h :: b :: l).Nodup := by
      have hp : (bs ++ h :: b :: l).Perm (b :: (bs ++ h :: l)) := by
        simpa using @List.perm_middle α b (bs ++ [h]) l
      rw [hp.nodup_iff, List.nodup_cons]
      exact ⟨by simpa using hbs.1, hbs.2⟩
    simpa using ih hpush hnd

end Updates

/-- Follow `f` from a node, at most `fuel` nodes long, up to the first element with `q`; the
list head `none` ends the search. -/
def walk {β : Type*} (f : Option β → Option β) (q : β → Bool) : ℕ → Option β → Option β
  | 0, _ => none
  | _ + 1, none => none
  | fuel + 1, some b => if q b then some b else walk f q fuel (f (some b))

theorem Seg.walk_next {β : Type*} {k : Links (Option β)} {a : Option β} {l : List β}
    (q : β → Bool) (h : k.Seg a (l.map some) none) {fuel : ℕ} (hf : l.length < fuel) :
    walk k.next q fuel (k.next a) = l.find? q := by
  induction l generalizing a fuel with
  | nil =>
    obtain ⟨fuel, rfl⟩ : ∃ n, fuel = n + 1 := ⟨fuel - 1, by omega⟩
    rw [h.1]
    rfl
  | cons x l ih =>
    obtain ⟨fuel, rfl⟩ : ∃ n, fuel = n + 1 := ⟨fuel - 1, by omega⟩
    rw [h.1, walk, List.find?_cons]
    have hrest : walk k.next q fuel (k.next (some x)) = l.find? q :=
      ih h.2.2 (by simpa using hf)
    cases q x
    · simpa using hrest
    · rfl

theorem Seg.walk_prev {β : Type*} {k : Links (Option β)} {b : Option β} {l : List β}
    (q : β → Bool) (h : k.Seg none (l.map some) b) {fuel : ℕ} (hf : l.length < fuel) :
    walk k.prev q fuel (k.prev b) = l.reverse.find? q := by
  induction l using List.reverseRecOn generalizing b fuel with
  | nil =>
    obtain ⟨fuel, rfl⟩ : ∃ n, fuel = n + 1 := ⟨fuel - 1, by omega⟩
    rw [h.2]
    rfl
  | append_singleton l x ih =>
    obtain ⟨fuel, rfl⟩ : ∃ n, fuel = n + 1 := ⟨fuel - 1, by omega⟩
    rw [List.map_append, List.map_singleton, seg_append] at h
    rw [h.2.2, walk, List.reverse_append, List.reverse_singleton, List.singleton_append,
      List.find?_cons]
    have hrest : walk k.prev q fuel (k.prev (some x)) = l.reverse.find? q :=
      ih h.1 (by simpa using hf)
    cases q x
    · simpa using hrest
    · rfl

/-- The elements of a history, each at the place of its most recent occurrence. -/
def mru [DecidableEq α] : List α → List α
  | [] => []
  | b :: hist => b :: (mru hist).erase b

variable [DecidableEq α]

theorem nodup_mru (hist : List α) : (mru hist).Nodup := by
  induction hist with
  | nil => simp [mru]
  | cons b hist ih => simp [mru, ih.erase b, ih.not_mem_erase]

theorem mru_of_nodup {hist : List α} (h : hist.Nodup) : mru hist = hist := by
  induction hist with
  | nil => rfl
  | cons b hist ih =>
    rw [List.nodup_cons] at h
    rw [mru, ih h.2, List.erase_of_not_mem h.1]

end Links
