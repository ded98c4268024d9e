import Xv6.Grep.Lines

/-! Which splits of the input the sliding buffer of `grep` handles. -/
namespace Xv6.Grep

/-- `x` stored over the bytes `stale` of earlier rounds. -/
def overlay (x stale : List UInt8) : List UInt8 := x ++ stale.drop x.length

/-- The pending part of a line and the next chunk do not fill the buffer, no newline of an earlier
round stands behind them, and the chunk ends a line unless no later one does. -/
def Clean (carry stale : List UInt8) : List (List UInt8) → Prop
  | [] => True
  | c :: cs =>
    (carry ++ c).length < BUF ∧ newline ∉ stale.drop (carry ++ c).length ∧
    (newline ∈ c ∨ newline ∉ cs.flatten) ∧
    Clean (if newline ∈ c then (linesFrom carry c).2 else []) (overlay (carry ++ c) stale) cs

instance decidableClean (carry stale : List UInt8) (cs : List (List UInt8)) :
    Decidable (Clean carry stale cs) :=
  match cs with
  | [] => isTrue trivial
  | c :: cs =>
    haveI := decidableClean (if newline ∈ c then (linesFrom carry c).2 else [])
      (overlay (carry ++ c) stale) cs
    inferInstanceAs (Decidable (_ ∧ _ ∧ _ ∧ _))

def leftover (carry stale : List UInt8) : List (List UInt8) → List UInt8
  | [] => overlay carry stale
  | c :: cs =>
    leftover (if newline ∈ c then (linesFrom carry c).2 else []) (overlay (carry ++ c) stale) cs

/-- Each file is split in a clean way, over the bytes of the files before it. -/
def CleanFiles (stale : List UInt8) : List (List (List UInt8)) → Prop
  | [] => True
  | file :: files => Clean [] stale file ∧ CleanFiles (leftover [] stale file) files

instance decidableCleanFiles (stale : List UInt8) (files : List (List (List UInt8))) :
    Decidable (CleanFiles stale files) :=
  match files with
  | [] => isTrue trivial
  | file :: files =>
    haveI := decidableCleanFiles (leftover [] stale file) files
    inferInstanceAs (Decidable (_ ∧ _))

/-- A byte of the buffer, by the byte that was read: newlines of lines that did not match are NUL.
-/
def Left (pattern : List UInt8) (b b' : UInt8) : Prop :=
  b' = b ∨ (b = newline ∧ b' = 0 ∧ pattern ≠ [])

/-- The buffer holds the pending part of a line, over the bytes of earlier rounds and NULs. -/
structure Holds (pattern carry stale : List UInt8) (s : State) : Prop where
  m : s.m = carry.length
  buf : List.Forall₂ (Left pattern)
    (overlay carry stale ++ List.replicate (BUF - (overlay carry stale).length) 0) s.buf
  pending : newline ∉ carry ∧ 0 ∉ carry
  noNul : 0 ∉ stale
  short : (overlay carry stale).length < BUF

theorem length_overlay (x stale : List UInt8) :
    (overlay x stale).length = max x.length stale.length := by
  rw [overlay, List.length_append, List.length_drop]
  omega

theorem memmove_eq (n dst src : ℕ) (buf : List UInt8) (hd : dst ≤ src) (hs : src + n ≤ buf.length) :
    memmove n dst src buf =
      some (buf.take dst ++ ((buf.drop src).take n ++ buf.drop (dst + n))) := by
  induction n generalizing dst src buf with
  | zero => simp [memmove]
  | succ n ih =>
    have hset : ∀ k, dst < k → (buf.set dst (buf.get ⟨src, by omega⟩)).drop k = buf.drop k := by
      intro k hk
      rw [List.drop_set_of_lt hk]
    rw [memmove, dif_pos ⟨by omega, by omega⟩, ih _ _ _ (by omega) (by rw [List.length_set]; omega),
      hset _ (by omega), hset _ (by omega), List.take_add_one,
      List.take_set_of_le (Nat.le_refl dst),
      List.drop_eq_getElem_cons (by omega : src < buf.length), List.take_succ_cons]
    simp [show dst < buf.length by omega, show dst + 1 + n = dst + (n + 1) by omega]

theorem Left.refl (pattern : List UInt8) (l : List UInt8) : List.Forall₂ (Left pattern) l l :=
  List.forall₂_same.mpr fun _ _ => Or.inl rfl

theorem eq_of_left {pattern T S : List UInt8} (h : List.Forall₂ (Left pattern) T S)
    (hT : newline ∉ T ∨ pattern = []) : S = T := by
  induction h with
  | nil => rfl
  | cons hb _ ih =>
    have htail := ih (hT.imp_left fun hT hm => hT (List.mem_cons_of_mem _ hm))
    rw [htail]
    obtain hb | ⟨hb, -, hp⟩ := hb
    · rw [hb]
    · exact absurd hT (not_or.mpr ⟨fun hT => hT (hb ▸ List.mem_cons_self), hp⟩)

theorem left_marked (pattern : List UInt8) (hp : ∀ l, matchText [] l = true)
    (ls : List (List UInt8)) :
    List.Forall₂ (Left pattern) (ls.flatMap (· ++ [newline])) (marked pattern ls) := by
  induction ls with
  | nil => exact .nil
  | cons l ls ih =>
    rw [marked, List.flatMap_cons, List.flatMap_cons]
    refine List.rel_append (List.rel_append (Left.refl pattern l) ?_) ih
    refine .cons ?_ .nil
    by_cases hm : matchText pattern l = true
    · exact Or.inl (if_pos hm)
    · refine Or.inr ⟨rfl, if_neg hm, fun hnil => hm ?_⟩
      rw [hnil]
      exact hp l

theorem matchText_nil (l : List UInt8) : matchText [] l = true := by
  rw [matchText]
  cases l with
  | nil => rfl
  | cons t l => rfl

namespace Holds

variable {pattern carry stale c : List UInt8} {s : State}

theorem stored (h : Holds pattern carry stale s) (hlen : (carry ++ c).length ≤ BUF) :
    ∃ S, s.buf.take s.m.toNat ++ c ++ s.buf.drop (s.m.toNat + c.length) = carry ++ c ++ S ∧
      List.Forall₂ (Left pattern) (stale.drop (carry ++ c).length ++
        List.replicate (BUF - (overlay (carry ++ c) stale).length) 0) S := by
  have hm : s.m.toNat = carry.length := by
    rw [h.m]
    rfl
  have htake : s.buf.take carry.length = carry := by
    have := List.forall₂_take carry.length h.buf
    rw [overlay, List.append_assoc, List.take_left' rfl] at this
    exact eq_of_left this (Or.inl h.pending.1)
  refine ⟨s.buf.drop (carry ++ c).length, ?_, ?_⟩
  · rw [hm, htake, List.length_append]
  · have := List.forall₂_drop (carry ++ c).length h.buf
    convert this using 1
    have hshort := h.short
    simp only [length_overlay, List.length_append] at *
    rw [overlay, List.append_assoc, List.drop_length_add_append, List.drop_append, List.drop_drop,
      List.drop_replicate, List.length_drop]
    congr 2
    omega

theorem strchr_rest {T : List UInt8} (h0 : 0 ∉ T) (hT : newline ∉ T) (n : ℕ) :
    strchr newline (T ++ List.replicate n 0) = if n = 0 then none else some none := by
  rw [strchr_append _ h0 hT]
  cases n with
  | zero => rfl
  | succ n => rfl

theorem overlay_noNul (h : Holds pattern carry stale s) (hc : 0 ∉ c) :
    0 ∉ carry ++ c ∧ 0 ∉ stale.drop (carry ++ c).length :=
  ⟨fun hm => (List.mem_append.mp hm).elim h.pending.2 hc,
    fun hm => h.noNul (List.mem_of_mem_drop hm)⟩

theorem round_eq (h : Holds pattern carry stale s) (hlen : (carry ++ c).length ≤ BUF)
    {x S out : List UInt8}
    (hbuf : s.buf.take s.m.toNat ++ c ++ s.buf.drop (s.m.toNat + c.length) = x ++ S)
    (hloop : lineLoop pattern ((x ++ S).length + 1) [] (x ++ S) s.out =
      some (marked pattern (linesFrom [] x).1, (linesFrom [] x).2 ++ S, out)) :
    round pattern s c =
      let buf := marked pattern (linesFrom [] x).1 ++ ((linesFrom [] x).2 ++ S)
      let p := (marked pattern (linesFrom [] x).1).length
      let m : ℤ := if p = 0 then 0 else (carry ++ c).length
      if m > 0 then (memmove (m - p).toNat 0 p buf).map fun buf => ⟨buf, m - p, out⟩
      else some ⟨buf, m, out⟩ := by
  have hm : s.m + c.length = ((carry ++ c).length : ℤ) := by
    rw [h.m, List.length_append, Nat.cast_add]
  have hin : ¬(s.m < 0 ∨ BUF < s.m + c.length) := by
    rw [hm, h.m]
    omega
  rw [round, if_neg hin]
  dsimp only
  rw [hbuf, hloop, hm]

theorem length_marked_add (pattern : List UInt8) (x : List UInt8) :
    (marked pattern (linesFrom [] x).1).length + (linesFrom [] x).2.length = x.length := by
  have hjoin := congrArg List.length (linesFrom_join [] x)
  rw [List.length_append, ← length_marked pattern] at hjoin
  exact hjoin

theorem marked_eq_nil_iff (pattern : List UInt8) (x : List UInt8) :
    (marked pattern (linesFrom [] x).1).length = 0 ↔ newline ∉ x := by
  constructor
  · intro h hm
    have hjoin := linesFrom_join [] x
    rw [length_marked] at h
    rw [List.length_eq_zero_iff.mp h, List.nil_append] at hjoin
    exact newline_notMem_tail List.not_mem_nil x (hjoin ▸ hm)
  · intro h
    rw [linesFrom_of_notMem [] h]
    rfl

theorem round (h : Holds pattern carry stale s) (hc : 0 ∉ c) (hlen : (carry ++ c).length < BUF)
    (hst : newline ∉ stale.drop (carry ++ c).length) :
    ∃ s', Grep.round pattern s c = some s' ∧
      Holds pattern (if newline ∈ c then (linesFrom carry c).2 else [])
        (overlay (carry ++ c) stale) s' ∧
      s'.out = s.out ++ printed pattern (linesFrom carry c).1 := by
  obtain ⟨S, hbuf, hS⟩ := h.stored hlen.le
  obtain ⟨hx0, hst0⟩ := h.overlay_noNul hc
  have hshort : (overlay (carry ++ c) stale).length < BUF := by
    have := h.short
    rw [length_overlay] at *
    omega
  set zeros := List.replicate (BUF - (overlay (carry ++ c) stale).length) (0 : UInt8)
  have hSeq : S = stale.drop (carry ++ c).length ++ zeros := by
    refine eq_of_left hS (Or.inl fun hm => (List.mem_append.mp hm).elim hst fun hm => ?_)
    exact absurd (List.eq_of_mem_replicate hm) (by decide)
  have hstr : strchr newline S = some none := by
    rw [hSeq, strchr_rest hst0 hst, if_neg (by omega)]
  have hloop := lineLoop_text pattern S s.out hx0 (fun q hq => by rw [hstr] at hq; cases hq)
  rw [hstr, if_neg nofun] at hloop
  rw [h.round_eq hlen.le hbuf hloop, ← linesFrom_eq_append c h.pending.1]
  have hadd := length_marked_add pattern (carry ++ c)
  have hmem : newline ∈ carry ++ c ↔ newline ∈ c := by
    rw [List.mem_append]
    exact or_iff_right h.pending.1
  have hnil := marked_eq_nil_iff pattern (carry ++ c)
  have hleft : List.Forall₂ (Left pattern) (overlay (carry ++ c) stale ++ zeros)
      (marked pattern (linesFrom [] (carry ++ c)).1 ++ ((linesFrom [] (carry ++ c)).2 ++ S)) := by
    have hjoin := linesFrom_join [] (carry ++ c)
    rw [List.nil_append] at hjoin
    rw [overlay, List.append_assoc, ← hSeq]
    nth_rewrite 1 [← hjoin]
    rw [List.append_assoc]
    exact List.rel_append (left_marked pattern matchText_nil _) (Left.refl pattern _)
  have hover0 : 0 ∉ overlay (carry ++ c) stale := fun hm => (List.mem_append.mp hm).elim hx0 hst0
  have hnl0 := newline_notMem_tail List.not_mem_nil (carry ++ c)
  have htail0 : 0 ∉ (linesFrom [] (carry ++ c)).2 := fun hm => hx0 (by
    rw [← List.nil_append (carry ++ c), ← linesFrom_join]
    exact List.mem_append_right _ hm)
  dsimp only
  generalize marked pattern (linesFrom [] (carry ++ c)).1 = mk at *
  generalize (linesFrom [] (carry ++ c)).2 = tl at *
  by_cases hnl : newline ∈ c
  · have hp : ¬mk.length = 0 := fun hp => hnil.mp hp (hmem.mpr hnl)
    have hcount : (((carry ++ c).length : ℤ) - mk.length).toNat = tl.length := by omega
    have hover : overlay tl (overlay (carry ++ c) stale) =
        tl ++ (overlay (carry ++ c) stale).drop tl.length := rfl
    have hlover : (overlay tl (overlay (carry ++ c) stale)).length =
        (overlay (carry ++ c) stale).length := by
      rw [length_overlay, length_overlay]
      omega
    have hlbuf := hleft.length_eq
    rw [List.length_append] at hlbuf
    rw [if_neg hp, if_pos (by omega), hcount, memmove_eq _ _ _ _ (Nat.zero_le _) (by
      rw [List.length_append, List.length_append]
      omega), if_pos hnl]
    refine ⟨_, rfl, ⟨?_, ?_, ⟨hnl0, htail0⟩, hover0, by rw [hlover]; exact hshort⟩, rfl⟩
    · change ((carry ++ c).length : ℤ) - mk.length = tl.length
      omega
    · rw [hlover, hover, List.append_assoc, List.take_zero, List.nil_append, zero_add,
        List.drop_left' rfl, List.take_left' rfl]
      refine List.rel_append (Left.refl pattern tl) ?_
      have := List.forall₂_drop tl.length hleft
      rwa [List.drop_append_of_le_length (by rw [length_overlay]; omega)] at this
  · have hp : mk.length = 0 := hnil.mpr fun hm => hnl (hmem.mp hm)
    have hover : overlay [] (overlay (carry ++ c) stale) = overlay (carry ++ c) stale := rfl
    rw [if_pos hp, if_neg (lt_irrefl _), if_neg hnl]
    exact ⟨_, rfl, ⟨rfl, by rw [hover]; exact hleft, ⟨List.not_mem_nil, List.not_mem_nil⟩, hover0,
      by rw [hover]; exact hshort⟩, rfl⟩

theorem printed_append (pattern : List UInt8) (a b : List (List UInt8)) :
    printed pattern (a ++ b) = printed pattern a ++ printed pattern b := by
  rw [printed, List.filter_append, List.flatMap_append]
  rfl

theorem again (h : Holds pattern carry stale s) :
    Holds pattern [] (overlay carry stale) ⟨s.buf, 0, []⟩ where
  m := rfl
  buf := h.buf
  pending := ⟨List.not_mem_nil, List.not_mem_nil⟩
  noNul := fun hm => (List.mem_append.mp hm).elim h.pending.2 fun hm =>
    h.noNul (List.mem_of_mem_drop hm)
  short := h.short

theorem rounds {cs : List (List UInt8)} (h : Holds pattern carry stale s) (h0 : 0 ∉ cs.flatten)
    (hclean : Clean carry stale cs) :
    ∃ s', Grep.rounds pattern s cs = some s' ∧
      Holds pattern [] (leftover carry stale cs) ⟨s'.buf, 0, []⟩ ∧
      s'.out = s.out ++ printed pattern (linesFrom carry cs.flatten).1 := by
  induction cs generalizing carry stale s with
  | nil => exact ⟨s, rfl, h.again, (List.append_nil _).symm⟩
  | cons c cs ih =>
    obtain ⟨hlen, hst, hend, hclean⟩ := hclean
    rw [List.flatten_cons, List.mem_append, not_or] at h0
    obtain ⟨u, hu, hH, hout⟩ := h.round h0.1 hlen hst
    obtain ⟨t, ht, hagain, htout⟩ := ih hH h0.2 hclean
    refine ⟨t, ?_, hagain, ?_⟩
    · rw [Grep.rounds, hu]
      exact ht
    · rw [htout, hout, List.flatten_cons, linesFrom_append, printed_append, ← List.append_assoc]
      by_cases hnl : newline ∈ c
      · rw [if_pos hnl]
      · have hrest := hend.resolve_left hnl
        rw [if_neg hnl, linesFrom_of_notMem [] hrest, linesFrom_of_notMem _ hrest]

/-! The empty pattern, which every line matches. -/

theorem printed_nil (ls : List (List UInt8)) : printed [] ls = ls.flatMap (· ++ [newline]) := by
  rw [printed, List.filter_eq_self.mpr fun l _ => matchText_nil l]

/-- The search leaves a full buffer. -/
theorem round_full (h : Holds pattern carry stale s) (hc : 0 ∉ c)
    (hlen : (carry ++ c).length = BUF) : Grep.round pattern s c = none := by
  obtain ⟨S, hbuf, hS⟩ := h.stored hlen.le
  have hstale : stale.length ≤ (carry ++ c).length := by
    have := h.short
    rw [length_overlay] at this
    omega
  have hnil : S = [] := by
    rw [List.drop_eq_nil_of_le hstale, List.nil_append, length_overlay, hlen,
      show BUF - max BUF stale.length = 0 by omega] at hS
    exact List.forall₂_nil_left_iff.mp hS
  have hloop := lineLoop_text pattern [] s.out (h.overlay_noNul hc).1 nofun
  have hm : s.m + c.length = ((carry ++ c).length : ℤ) := by
    rw [h.m, List.length_append, Nat.cast_add]
  rw [Grep.round, if_neg (by rw [hm, h.m]; omega)]
  dsimp only
  rw [hbuf, hnil, hloop]
  rfl

/-- The search finds a newline of an earlier round: the line that it ends is printed, and the count
of bytes becomes negative. -/
theorem round_stale (h : Holds [] carry stale s) (hc : 0 ∉ c) (hne : c ≠ [])
    (hlen : (carry ++ c).length < BUF) (hst : newline ∈ stale.drop (carry ++ c).length) :
    ∃ s', Grep.round [] s c = some s' ∧ s'.m < 0 ∧
      s'.out = s.out ++ (linesFrom [] (overlay (carry ++ c) stale)).1.flatMap (· ++ [newline]) ∧
      (linesFrom [] (overlay (carry ++ c) stale)).2.length + (carry ++ c).length <
        (overlay (carry ++ c) stale).length := by
  obtain ⟨S, hbuf, hS⟩ := h.stored hlen.le
  obtain ⟨hx0, hst0⟩ := h.overlay_noNul hc
  have hover0 : 0 ∉ overlay (carry ++ c) stale := fun hm => (List.mem_append.mp hm).elim hx0 hst0
  have hshort : (overlay (carry ++ c) stale).length < BUF := by
    have := h.short
    rw [length_overlay] at *
    omega
  set zeros := List.replicate (BUF - (overlay (carry ++ c) stale).length) (0 : UInt8)
  rw [eq_of_left hS (Or.inr rfl), ← List.append_assoc] at hbuf
  change _ = overlay (carry ++ c) stale ++ zeros at hbuf
  have hstr : strchr newline zeros = some none := by
    have := strchr_rest (T := []) List.not_mem_nil List.not_mem_nil
      (BUF - (overlay (carry ++ c) stale).length)
    rwa [if_neg (by omega)] at this
  have hloop := lineLoop_text [] zeros s.out hover0 (fun q hq => by rw [hstr] at hq; cases hq)
  rw [hstr, if_neg nofun] at hloop
  have htail : (linesFrom [] (overlay (carry ++ c) stale)).2.length + (carry ++ c).length <
      (overlay (carry ++ c) stale).length := by
    have hlt := length_tail_lt (linesFrom [] (carry ++ c)).2 hst
    have hover : (overlay (carry ++ c) stale).length =
        (carry ++ c).length + (stale.drop (carry ++ c).length).length := List.length_append
    rw [hover, overlay, linesFrom_append]
    dsimp only
    omega
  rw [h.round_eq hlen.le hbuf hloop]
  have hadd := length_marked_add [] (overlay (carry ++ c) stale)
  have hpos : 0 < (carry ++ c).length := by
    rw [List.length_append]
    have := List.length_pos_of_ne_nil hne
    omega
  generalize (marked [] (linesFrom [] (overlay (carry ++ c) stale)).1) = mk at *
  dsimp only
  rw [if_neg (show ¬mk.length = 0 by omega), if_pos (by omega), Int.toNat_of_nonpos (by omega),
    memmove]
  refine ⟨_, rfl, ?_, by rw [printed_nil], htail⟩
  change ((carry ++ c).length : ℤ) - mk.length < 0
  omega

theorem lineLoop_out {fuel : ℕ} {before rest out before' rest' out' : List UInt8}
    (h : lineLoop pattern fuel before rest out = some (before', rest', out')) :
    ∃ o, out' = out ++ o := by
  induction fuel generalizing before rest out with
  | zero => cases h
  | succ fuel ih =>
    rw [lineLoop] at h
    split at h
    · cases h
    · cases h
      exact ⟨[], (List.append_nil _).symm⟩
    · dsimp only at h
      split at h
      · obtain ⟨o, ho⟩ := ih h
        exact ⟨_, ho.trans (List.append_assoc _ _ _)⟩
      · exact ih h

theorem round_out {s' : State} (h : Grep.round pattern s c = some s') :
    ∃ o, s'.out = s.out ++ o := by
  rw [Grep.round] at h
  split at h
  · cases h
  dsimp only at h
  split at h
  · cases h
  rename_i before rest out hloop
  obtain ⟨o, ho⟩ := lineLoop_out hloop
  refine ⟨o, ho ▸ ?_⟩
  generalize (if before.length = 0 then (0 : ℤ) else s.m + c.length) = m at h
  split at h
  · obtain ⟨buf, -, rfl⟩ := Option.map_eq_some_iff.mp h
    rfl
  · cases h
    rfl

theorem rounds_out {cs : List (List UInt8)} {t : State} (h : Grep.rounds pattern s cs = some t) :
    ∃ o, t.out = s.out ++ o := by
  induction cs generalizing s with
  | nil =>
    cases h
    exact ⟨[], (List.append_nil _).symm⟩
  | cons c cs ih =>
    obtain ⟨u, hu, ht⟩ := Option.bind_eq_some_iff.mp h
    obtain ⟨o, ho⟩ := round_out hu
    obtain ⟨o', ho'⟩ := ih ht
    exact ⟨o ++ o', by rw [ho', ho, List.append_assoc]⟩

/-- With a negative count the next `read` stores below the buffer. -/
theorem rounds_neg {cs : List (List UInt8)} (h : s.m < 0) (hcs : cs ≠ []) :
    Grep.rounds pattern s cs = none := by
  cases cs with
  | nil => exact absurd rfl hcs
  | cons c cs => rw [Grep.rounds, Grep.round, if_pos (Or.inl h), Option.bind_none]

theorem fits (h : Holds pattern carry stale s) (hfit : (c.length : ℤ) ≤ BUF - s.m) :
    (carry ++ c).length ≤ BUF := by
  rw [h.m] at hfit
  rw [List.length_append]
  omega

theorem not_full {u : State} (h : Holds pattern carry stale s) (hc : 0 ∉ c)
    (hfit : (c.length : ℤ) ≤ BUF - s.m) (hu : Grep.round pattern s c = some u) :
    (carry ++ c).length < BUF := by
  refine lt_of_le_of_ne (h.fits hfit) fun heq => ?_
  rw [h.round_full hc heq] at hu
  cases hu

/-- If a line ends later, the first line that is printed next is not longer than what is left of the
input up to its end. -/
theorem first_line {cs : List (List UInt8)} {t : State} (h : Holds [] carry stale s)
    (h0 : 0 ∉ cs.flatten) (hreads : Reads [] s cs) (hnl : newline ∈ cs.flatten)
    (ht : Grep.rounds [] s cs = some t) :
    ∃ u o, t.out = s.out ++ (u ++ newline :: o) ∧ newline ∉ u ∧
      u.length ≤ (firstLine (carry ++ cs.flatten)).length := by
  induction cs generalizing carry stale s with
  | nil => exact absurd hnl List.not_mem_nil
  | cons c cs ih =>
    obtain ⟨hne, hfit, hreads⟩ := hreads
    rw [List.flatten_cons, List.mem_append, not_or] at h0
    rw [List.flatten_cons, List.mem_append] at hnl
    obtain ⟨u, hu, ht⟩ := Option.bind_eq_some_iff.mp ht
    have hlen := h.not_full h0.1 hfit hu
    rw [List.flatten_cons, firstLine_append h.pending.1]
    by_cases hc : newline ∈ c
    · suffices hfirst : ∃ o, u.out = s.out ++ (carry ++ firstLine c ++ newline :: o) by
        obtain ⟨o, ho⟩ := hfirst
        obtain ⟨o', ho'⟩ := rounds_out ht
        refine ⟨carry ++ firstLine c, o ++ o', ?_, fun hm => ?_, ?_⟩
        · rw [ho', ho]
          simp
        · exact (List.mem_append.mp hm).elim h.pending.1 (newline_notMem_firstLine c)
        · rw [firstLine_append_of_mem hc]
      have hprint : ∀ b, ∃ o, (linesFrom carry (c ++ b)).1.flatMap (· ++ [newline]) =
          carry ++ firstLine c ++ newline :: o := by
        intro b
        obtain ⟨ls, hls⟩ := linesFrom_of_mem carry (List.mem_append_left b hc)
        refine ⟨ls.flatMap (· ++ [newline]), ?_⟩
        rw [hls, firstLine_append_of_mem hc, List.flatMap_cons, List.append_assoc,
          List.singleton_append]
      by_cases hst : newline ∈ stale.drop (carry ++ c).length
      · obtain ⟨u', hu', -, hout, -⟩ := h.round_stale h0.1 hne hlen hst
        obtain rfl := Option.some.inj (hu.symm.trans hu')
        obtain ⟨o, ho⟩ := hprint (stale.drop (carry ++ c).length)
        refine ⟨o, ?_⟩
        rw [hout, overlay, List.append_assoc, linesFrom_eq_append _ h.pending.1, ho]
      · obtain ⟨u', hu', -, hout⟩ := h.round h0.1 hlen hst
        obtain rfl := Option.some.inj (hu.symm.trans hu')
        obtain ⟨o, ho⟩ := hprint []
        rw [List.append_nil] at ho
        exact ⟨o, by rw [hout, printed_nil, ho]⟩
    · have hnl := hnl.resolve_left hc
      have hst : newline ∉ stale.drop (carry ++ c).length := by
        intro hst
        obtain ⟨u', hu', hneg, -⟩ := h.round_stale h0.1 hne hlen hst
        obtain rfl := Option.some.inj (hu.symm.trans hu')
        rw [rounds_neg hneg
          (fun hcs => by rw [hcs] at hnl; exact absurd hnl List.not_mem_nil)] at ht
        cases ht
      obtain ⟨u', hu', hH, hout⟩ := h.round h0.1 hlen hst
      obtain rfl := Option.some.inj (hu.symm.trans hu')
      rw [if_neg hc] at hH
      obtain ⟨l, o, htout, hl, hle⟩ := ih hH h0.2 (hreads u hu) hnl ht
      rw [linesFrom_of_notMem _ hc, printed_nil, List.flatMap_nil, List.append_nil] at hout
      refine ⟨l, o, by rw [htout, hout], hl, ?_⟩
      rw [firstLine_append hc, List.length_append, List.length_append]
      rw [List.nil_append] at hle
      omega

/-- What `grep` handles is a clean split. -/
theorem clean {cs : List (List UInt8)} {t : State} (h : Holds [] carry stale s)
    (h0 : 0 ∉ cs.flatten) (hreads : Reads [] s cs) (ht : Grep.rounds [] s cs = some t)
    (hout : t.out = s.out ++ printed [] (linesFrom carry cs.flatten).1) : Clean carry stale cs := by
  induction cs generalizing carry stale s with
  | nil => trivial
  | cons c cs ih =>
    obtain ⟨hne, hfit, hreads⟩ := hreads
    rw [List.flatten_cons, List.mem_append, not_or] at h0
    rw [List.flatten_cons] at hout
    obtain ⟨u, hu, ht⟩ := Option.bind_eq_some_iff.mp ht
    have hlen := h.not_full h0.1 hfit hu
    have hst : newline ∉ stale.drop (carry ++ c).length := by
      intro hst
      obtain ⟨u', hu', hneg, huout, htail⟩ := h.round_stale h0.1 hne hlen hst
      obtain rfl := Option.some.inj (hu.symm.trans hu')
      by_cases hcs : cs = []
      · rw [hcs] at ht hout
        cases ht
        have hjoin := congrArg List.length (linesFrom_join [] (overlay (carry ++ c) stale))
        have hjoin' := congrArg List.length (linesFrom_join carry c)
        have heq := congrArg List.length (List.append_cancel_left (huout.symm.trans hout))
        rw [List.flatten_nil, List.append_nil, printed_nil] at heq
        rw [List.length_append] at hjoin hjoin'
        rw [List.nil_append] at hjoin
        omega
      · rw [rounds_neg hneg hcs] at ht
        cases ht
    obtain ⟨u', hu', hH, huout⟩ := h.round h0.1 hlen hst
    obtain rfl := Option.some.inj (hu.symm.trans hu')
    have hend : newline ∈ c ∨ newline ∉ cs.flatten := by
      by_contra hnot
      obtain ⟨hc, hnl⟩ := not_or.mp hnot
      have hnl := not_not.mp hnl
      rw [if_neg hc] at hH
      obtain ⟨l, o, htout, hl, hle⟩ := hH.first_line h0.2 (hreads u hu) hnl ht
      obtain ⟨ls, hls⟩ := linesFrom_of_mem carry (List.mem_append_right c hnl)
      rw [linesFrom_of_notMem _ hc, printed_nil, List.flatMap_nil, List.append_nil] at huout
      rw [printed_nil, hls, List.flatMap_cons, List.append_assoc, htout, huout] at hout
      have heq := congrArg firstLine (List.append_cancel_left hout)
      have hcut : ∀ r, firstLine (newline :: r) = [] :=
        fun r => List.takeWhile_cons_of_neg (by simp)
      have hfirst : newline ∉ carry ++ firstLine (c ++ cs.flatten) := fun hm =>
        (List.mem_append.mp hm).elim h.pending.1 (newline_notMem_firstLine _)
      rw [firstLine_append hl, firstLine_append hfirst, List.singleton_append, hcut, hcut,
        firstLine_append hc] at heq
      have := congrArg List.length heq
      simp only [List.length_append, List.append_nil, List.nil_append] at this hle
      have := List.length_pos_of_ne_nil hne
      omega
    refine ⟨hlen, hst, hend, ih hH h0.2 (hreads u hu) ht ?_⟩
    rw [hout, huout, linesFrom_append, printed_append, List.append_assoc]
    by_cases hc : newline ∈ c
    · rw [if_pos hc]
    · have hrest := hend.resolve_left hc
      rw [if_neg hc, linesFrom_of_notMem _ hrest, linesFrom_of_notMem _ hrest]

theorem mainLoop {buf : List UInt8} {files : List (List (List UInt8))}
    (h : Holds pattern [] stale ⟨buf, 0, []⟩) (h0 : ∀ file ∈ files, 0 ∉ file.flatten)
    (hclean : CleanFiles stale files) :
    Grep.mainLoop pattern buf files =
      some (files.map fun file => printed pattern (linesFrom [] file.flatten).1) := by
  induction files generalizing stale buf with
  | nil => rfl
  | cons file files ih =>
    obtain ⟨u, hu, hagain, hout⟩ := h.rounds (h0 file List.mem_cons_self) hclean.1
    have hrest := ih hagain (fun f hf => h0 f (List.mem_cons_of_mem _ hf)) hclean.2
    rw [Grep.mainLoop, grep, hu, Option.bind_some, hrest, Option.map_some, hout, List.nil_append,
      List.map_cons]

theorem cleanFiles {buf : List UInt8} {files : List (List (List UInt8))}
    (h : Holds [] [] stale ⟨buf, 0, []⟩) (h0 : ∀ file ∈ files, 0 ∉ file.flatten)
    (hreads : ReadsFiles [] buf files)
    (hloop : Grep.mainLoop [] buf files =
      some (files.map fun file => printed [] (linesFrom [] file.flatten).1)) :
    CleanFiles stale files := by
  induction files generalizing stale buf with
  | nil => trivial
  | cons file files ih =>
    have hfile := h0 file List.mem_cons_self
    obtain ⟨u, hu, hmap⟩ := Option.bind_eq_some_iff.mp hloop
    obtain ⟨outs, houts, hcons⟩ := Option.map_eq_some_iff.mp hmap
    obtain ⟨hout, rfl⟩ := List.cons.inj hcons
    have hclean := h.clean hfile hreads.1 hu (by rw [hout, List.nil_append])
    obtain ⟨u', hu', hagain, -⟩ := h.rounds hfile hclean
    obtain rfl := Option.some.inj (hu.symm.trans hu')
    exact ⟨hclean, ih hagain (fun f hf => h0 f (List.mem_cons_of_mem _ hf)) (hreads.2 u hu) houts⟩

theorem start (pattern : List UInt8) : Holds pattern [] [] ⟨zeros, 0, []⟩ :=
  ⟨rfl, Left.refl pattern _, ⟨List.not_mem_nil, List.not_mem_nil⟩, List.not_mem_nil, by decide⟩

end Holds

/-- `grep` prints the matching lines of each file and stays in its buffer, for every pattern,
exactly when the calls of `read` split the files in a clean way. -/
theorem grep_prints_matching_lines_iff (files : List (List (List UInt8)))
    (h0 : ∀ file ∈ files, 0 ∉ file.flatten) (hreads : ∀ pattern, ReadsFiles pattern zeros files) :
    (∀ pattern, mainLoop pattern zeros files =
      some (files.map fun file => printed pattern (linesFrom [] file.flatten).1)) ↔
      CleanFiles [] files :=
  ⟨fun h => (Holds.start []).cleanFiles h0 (hreads []) (h []),
    fun h pattern => (Holds.start pattern).mainLoop h0 h⟩

/-- Two files: two reads that each end a line, the second one not shorter than the first, and then a
read that ends with a part of a line behind the newlines before. -/
theorem grep_prints_matching_lines_two :
    mainLoop [98] zeros [[[97, 10], [98, 98, 10]], [[97, 98, 10, 98]]] =
      some [[98, 98, 10], [97, 98, 10]] := by
  have hm : ∀ pattern s, round pattern ⟨zeros, 0, []⟩ [97, 10] = some s → s.m = 0 := by
    intro pattern s hs
    obtain ⟨u, hu, hH, -⟩ :=
      (Holds.start pattern).round (c := [97, 10]) (by decide) (by decide) (by decide)
    rw [← Option.some.inj (hu.symm.trans hs)]
    exact hH.m
  have hfirst : ∀ pattern, Reads pattern ⟨zeros, 0, []⟩ [[97, 10], [98, 98, 10]] := fun pattern =>
    ⟨nofun, by decide, fun s hs => ⟨nofun, by rw [hm pattern s hs]; decide, fun _ _ => trivial⟩⟩
  have hreads : ∀ pattern,
      ReadsFiles pattern zeros [[[97, 10], [98, 98, 10]], [[97, 98, 10, 98]]] := fun pattern =>
    ⟨hfirst pattern, fun _ _ =>
      ⟨⟨nofun, show (4 : ℤ) ≤ BUF - 0 by decide, fun _ _ => trivial⟩, fun _ _ => trivial⟩⟩
  have hclean : CleanFiles [] [[[97, 10], [98, 98, 10]], [[97, 98, 10, 98]]] := by decide
  exact (grep_prints_matching_lines_iff _ (by decide) hreads).mpr hclean [98]

/-- A line of which the first read delivers only a part is not found, and the rest of a line of the
first file is printed for the second one. -/
theorem grep_drops_partial_line :
    0 ∉ [[97], [98, 10]].flatten ∧
    (∀ l ∈ (linesFrom [] [[97], [98, 10]].flatten).1, l.length + 1 < BUF) ∧
    ReadsFiles [97, 98] zeros [[[97], [98, 10]]] ∧
    printed [97, 98] (linesFrom [] [[97], [98, 10]].flatten).1 = [97, 98, 10] ∧
    mainLoop [97, 98] zeros [[[97], [98, 10]]] = some [[]] ∧
    printed [108] (linesFrom [] [97, 98]).1 = [] ∧
    mainLoop [108] zeros [[[104, 101, 108, 108, 111, 10]], [[97, 98]]] =
      some [[104, 101, 108, 108, 111, 10], [97, 98, 108, 108, 111, 10]] := by
  have hm : (round [97, 98] ⟨zeros, 0, []⟩ [97]).map State.m = some 0 := by decide +kernel
  refine ⟨by decide, by decide, ⟨⟨nofun, by decide, fun s hs => ⟨nofun, ?_, fun _ _ => trivial⟩⟩,
    fun _ _ => trivial⟩, by decide, by decide +kernel, by decide, by decide +kernel⟩
  rw [hs, Option.map_some, Option.some.injEq] at hm
  rw [hm]
  decide

end Xv6.Grep
