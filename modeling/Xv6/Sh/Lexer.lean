import Mathlib.Data.List.TakeWhile
import Xv6.Sh.Parser

/-! The tokens of a command string, and `gettoken` and `peek` as operations on what is left of
them. -/
namespace Xv6

namespace Sh

structure Token where
  tok : Tok
  slice : Slice
  deriving DecidableEq, Repr

def Gettoken.token (g : Gettoken) : Token := ⟨g.tok, g.slice⟩

/-- The tokens of a string that starts at position `i`: words and symbols, with whitespace
between them, `>>` rather than two `>`, and words as long as possible. -/
def lex (i : ℕ) (l : List UInt8) : List Token :=
  match l with
  | [] => []
  | c :: cs =>
    if isSpace c then lex (i + 1) cs
    else if c = GREATER then
      if cs.head? = some GREATER then ⟨.append, ⟨i, i + 2⟩⟩ :: lex (i + 2) cs.tail
      else ⟨.greater, ⟨i, i + 1⟩⟩ :: lex (i + 1) cs
    else
      match symbolTok c with
      | some tok => ⟨tok, ⟨i, i + 1⟩⟩ :: lex (i + 1) cs
      | none =>
        ⟨.word, ⟨i, i + 1 + (cs.takeWhile isWord).length⟩⟩ ::
          lex (i + 1 + (cs.takeWhile isWord).length) (cs.dropWhile isWord)
termination_by l.length
decreasing_by
  · exact Nat.lt_succ_self _
  · rw [List.length_tail, List.length_cons]
    omega
  · exact Nat.lt_succ_self _
  · exact Nat.lt_succ_self _
  · exact Nat.lt_succ_of_le (List.length_dropWhile_le isWord cs)

def tokensFrom (buf : List UInt8) (s : ℕ) : List Token := lex s (buf.drop s)

def Tok.byte : Tok → Option UInt8
  | .bar => some BAR
  | .lparen => some LPAREN
  | .rparen => some RPAREN
  | .semi => some SEMI
  | .amp => some AMP
  | .less => some LESS
  | .greater => some GREATER
  | .append => some GREATER
  | .eof => none
  | .word => none

/-- The slice is a word of the string, as long as possible. -/
structure WordAt (buf : List UInt8) (w : Slice) : Prop where
  start : w.q < w.eq
  stop : w.eq ≤ buf.length
  inside : ∀ i, w.q ≤ i → i < w.eq → isWord (byteAt buf i)
  after : w.eq < buf.length → ¬isWord (byteAt buf w.eq)

section lexer

variable {buf : List UInt8} {s : ℕ}

theorem drop_scan (p : UInt8 → Bool) (buf : List UInt8) (s : ℕ) :
    buf.drop (scan p buf s) = (buf.drop s).dropWhile p := by
  have hsplit := List.takeWhile_append_dropWhile (p := p) (l := buf.drop s)
  rw [scan, ← List.drop_drop]
  nth_rewrite 2 [← hsplit]
  exact List.drop_left

theorem lex_space (i : ℕ) (l : List UInt8) :
    lex i l = lex (i + (l.takeWhile isSpace).length) (l.dropWhile isSpace) := by
  induction l generalizing i with
  | nil => rfl
  | cons c cs ih =>
    by_cases hc : isSpace c
    · rw [List.takeWhile_cons_of_pos hc, List.dropWhile_cons_of_pos hc, lex, if_pos hc, ih,
        List.length_cons, Nat.add_assoc, Nat.add_comm 1]
    · rw [List.takeWhile_cons_of_neg hc, List.dropWhile_cons_of_neg hc]
      rfl

theorem tokensFrom_scan (buf : List UInt8) (s : ℕ) :
    tokensFrom buf (scan isSpace buf s) = tokensFrom buf s := by
  rw [tokensFrom, drop_scan, tokensFrom, lex_space s]
  rfl

theorem byteAt_eq (buf : List UInt8) (s : ℕ) : byteAt buf s = (buf.drop s).headD 0 := by
  simp [byteAt, List.getD_eq_getElem?_getD, List.headD_eq_head?_getD, List.head?_drop]

theorem not_isSpace_of_scan {c : UInt8} {cs : List UInt8}
    (h : buf.drop (scan isSpace buf s) = c :: cs) : ¬isSpace c := by
  rw [drop_scan] at h
  have hne : (buf.drop s).dropWhile isSpace ≠ [] := by simp [h]
  have hhead := List.head_dropWhile_not isSpace hne
  simpa [h] using hhead

theorem drop_succ {c : UInt8} {cs : List UInt8} (h : buf.drop s = c :: cs) :
    buf.drop (s + 1) = cs := by
  rw [← List.drop_drop, h]
  rfl

theorem symbolTok_some {c : UInt8} {tok : Tok} (h : symbolTok c = some tok) :
    tok ≠ .eof ∧ tok.byte = some c ∧ c ∈ symbols := by
  unfold symbolTok at h
  split_ifs at h with h₁ h₂ h₃ h₄ h₅ h₆ <;> obtain rfl := Option.some.inj h <;>
    subst c <;> decide

theorem isWord_of_symbolTok {c : UInt8} (hspace : ¬isSpace c) (hgt : c ≠ GREATER)
    (h : symbolTok c = none) : isWord c := by
  have hnot : c ∉ symbols := by
    intro hmem
    simp only [symbols, List.mem_cons, List.not_mem_nil, or_false] at hmem
    rcases hmem with rfl | rfl | rfl | rfl | rfl | rfl | rfl <;> first | exact hgt rfl | cases h
  simp only [isSpace, decide_eq_true_eq] at hspace
  simp [isWord, hspace, hnot]

theorem tokenAt_cons {c : UInt8} {cs : List UInt8} (hs : buf.drop s = c :: cs) (hspace : ¬isSpace c)
    (hc : c ≠ 0) :
    tokensFrom buf s =
        ⟨(tokenAt buf s).1, ⟨s, (tokenAt buf s).2⟩⟩ :: tokensFrom buf (tokenAt buf s).2 ∧
      (tokenAt buf s).1 ≠ .eof ∧
      ((tokenAt buf s).1.byte = some c ∧ c ∈ symbols ∨
        (tokenAt buf s).1 = .word ∧ isWord c ∧ (tokenAt buf s).2 = scan isWord buf s) := by
  have hbyte : byteAt buf s = c := by rw [byteAt_eq, hs]; rfl
  have hnext := drop_succ hs
  have hbyte' : byteAt buf (s + 1) = cs.headD 0 := by rw [byteAt_eq, hnext]
  rw [tokensFrom, hs, lex, if_neg hspace]
  simp only [tokenAt, hbyte, if_neg hc]
  by_cases hgt : c = GREATER
  · have hiff : cs.head? = some GREATER ↔ cs.headD 0 = GREATER := by
      cases cs with
      | nil => simp [GREATER]
      | cons d ds => simp
    rw [if_pos hgt, if_pos hgt, hbyte']
    by_cases hhead : cs.headD 0 = GREATER
    · rw [if_pos hhead, if_pos (hiff.mpr hhead)]
      refine ⟨?_, by simp, .inl ⟨by rw [hgt]; rfl, by rw [hgt]; decide⟩⟩
      have htail : buf.drop (s + 2) = cs.tail := by
        rw [← hnext, List.tail_drop]
      rw [tokensFrom, htail]
    · rw [if_neg hhead, if_neg (mt hiff.mp hhead)]
      refine ⟨?_, by simp, .inl ⟨by rw [hgt]; rfl, by rw [hgt]; decide⟩⟩
      rw [tokensFrom, hnext]
  · rw [if_neg hgt, if_neg hgt]
    cases hsym : symbolTok c with
    | some tok =>
      dsimp only
      rw [tokensFrom, hnext]
      obtain ⟨heof, hbyte, hmem⟩ := symbolTok_some hsym
      exact ⟨rfl, heof, .inl ⟨hbyte, hmem⟩⟩
    | none =>
      dsimp only
      have hword := isWord_of_symbolTok hspace hgt hsym
      have hscan : scan isWord buf s = s + 1 + (cs.takeWhile isWord).length := by
        rw [scan, hs, List.takeWhile_cons_of_pos hword, List.length_cons]
        omega
      have hdrop : buf.drop (scan isWord buf s) = cs.dropWhile isWord := by
        rw [drop_scan, hs, List.dropWhile_cons_of_pos hword]
      refine ⟨?_, by simp, .inr ⟨rfl, hword, rfl⟩⟩
      rw [tokensFrom, hdrop, hscan]

theorem wordAt_scan {c : UInt8} {cs : List UInt8} (hs : buf.drop s = c :: cs) (hword : isWord c) :
    WordAt buf ⟨s, scan isWord buf s⟩ := by
  have hlen : ((buf.drop s).takeWhile isWord).length ≤ buf.length - s := by
    have := (List.takeWhile_prefix isWord (l := buf.drop s)).length_le
    simpa using this
  have hlt : s < buf.length := by
    by_contra hge
    rw [List.drop_eq_nil_of_le (by omega)] at hs
    cases hs
  refine ⟨?_, ?_, fun i hlo hhi => ?_, fun hstop => ?_⟩
  · simp [scan, hs, hword]
  · simp only [scan]
    omega
  · dsimp only at hlo hhi
    obtain ⟨j, rfl⟩ := Nat.exists_eq_add_of_le hlo
    have hsplit := List.takeWhile_append_dropWhile (p := isWord) (l := buf.drop s)
    have hin : j < ((buf.drop s).takeWhile isWord).length := by
      simp only [scan] at hhi
      omega
    have hbyte : byteAt buf (s + j) = ((buf.drop s).takeWhile isWord)[j] := by
      rw [byteAt_eq, ← List.drop_drop]
      nth_rewrite 1 [← hsplit]
      rw [List.headD_eq_head?_getD, List.head?_drop, List.getElem?_append_left hin,
        List.getElem?_eq_getElem hin]
      rfl
    rw [hbyte]
    exact List.mem_takeWhile_imp (List.getElem_mem hin)
  · dsimp only at hstop ⊢
    have hne : (buf.drop s).dropWhile isWord ≠ [] := by
      rw [← drop_scan, ne_eq, List.drop_eq_nil_iff]
      omega
    rw [byteAt_eq, drop_scan, List.headD_eq_head?_getD, List.head?_eq_some_head hne]
    simpa using List.head_dropWhile_not isWord hne

theorem gettoken_spec (hnul : 0 ∉ buf) (s : ℕ) :
    (tokensFrom buf s = [] ∧ (gettoken buf s).tok = .eof ∧
      tokensFrom buf (gettoken buf s).s = []) ∨
    (tokensFrom buf s = (gettoken buf s).token :: tokensFrom buf (gettoken buf s).s ∧
      (gettoken buf s).tok ≠ .eof ∧
      ((gettoken buf s).tok = .word → WordAt buf (gettoken buf s).slice)) := by
  rw [← tokensFrom_scan buf s]
  simp only [gettoken, Gettoken.token]
  rw [tokensFrom_scan buf (tokenAt buf (scan isSpace buf s)).2]
  cases hs : buf.drop (scan isSpace buf s) with
  | nil =>
    have hbyte : byteAt buf (scan isSpace buf s) = 0 := by rw [byteAt_eq, hs]; rfl
    have htokens : tokensFrom buf (scan isSpace buf s) = [] := by rw [tokensFrom, hs, lex]
    refine .inl ⟨htokens, ?_, ?_⟩
    · simp [tokenAt, hbyte]
    · simpa [tokenAt, hbyte] using htokens
  | cons c cs =>
    have hc : c ≠ 0 := by
      rintro rfl
      exact hnul (List.mem_of_mem_drop (hs ▸ List.mem_cons_self))
    obtain ⟨htokens, heof, hkind⟩ := tokenAt_cons hs (not_isSpace_of_scan hs) hc
    refine .inr ⟨htokens, heof, fun hword => ?_⟩
    rcases hkind with ⟨hbyte, -⟩ | ⟨-, hisWord, hstop⟩
    · rw [hword] at hbyte
      cases hbyte
    · rw [hstop]
      exact wordAt_scan hs hisWord

theorem peek_spec (hnul : 0 ∉ buf) (s : ℕ) {toks : List UInt8} (htoks : toks ⊆ symbols) :
    tokensFrom buf (peek buf s toks).2 = tokensFrom buf s ∧
      ((peek buf s toks).1 = true ↔
        ∃ t ts, tokensFrom buf s = t :: ts ∧ ∃ c ∈ toks, t.tok.byte = some c) := by
  simp only [peek]
  refine ⟨tokensFrom_scan buf s, ?_⟩
  rw [← tokensFrom_scan buf s]
  cases hs : buf.drop (scan isSpace buf s) with
  | nil =>
    have hbyte : byteAt buf (scan isSpace buf s) = 0 := by rw [byteAt_eq, hs]; rfl
    have htokens : tokensFrom buf (scan isSpace buf s) = [] := by rw [tokensFrom, hs, lex]
    simp [hbyte, htokens]
  | cons c cs =>
    have hc : c ≠ 0 := by
      rintro rfl
      exact hnul (List.mem_of_mem_drop (hs ▸ List.mem_cons_self))
    have hbyte : byteAt buf (scan isSpace buf s) = c := by rw [byteAt_eq, hs]; rfl
    obtain ⟨htokens, -, hkind⟩ := tokenAt_cons hs (not_isSpace_of_scan hs) hc
    rw [htokens, hbyte]
    simp only [decide_eq_true_eq]
    constructor
    · rintro ⟨-, hmem⟩
      refine ⟨_, _, rfl, c, hmem, ?_⟩
      rcases hkind with ⟨hfirst, -⟩ | ⟨-, hisWord, -⟩
      · exact hfirst
      · simp [isWord, htoks hmem] at hisWord
    · rintro ⟨t, ts, heq, c', hmem, hfirst⟩
      obtain ⟨rfl, -⟩ := List.cons.inj heq
      rcases hkind with ⟨hbyte', -⟩ | ⟨hword, -, -⟩
      · rw [hbyte', Option.some.injEq] at hfirst
        exact ⟨hc, hfirst ▸ hmem⟩
      · rw [hword] at hfirst
        cases hfirst

/-- After `peek` has found a symbol, `gettoken` takes it. -/
theorem peek_true (hnul : 0 ∉ buf) {toks : List UInt8} (htoks : toks ⊆ symbols)
    (h : (peek buf s toks).1 = true) :
    tokensFrom buf s = (gettoken buf (peek buf s toks).2).token ::
        tokensFrom buf (gettoken buf (peek buf s toks).2).s ∧
      ∃ c ∈ toks, (gettoken buf (peek buf s toks).2).tok.byte = some c := by
  obtain ⟨htokens, hiff⟩ := peek_spec hnul s htoks
  obtain ⟨t, ts, heq, hc⟩ := hiff.mp h
  rcases gettoken_spec hnul (peek buf s toks).2 with ⟨hnil, -⟩ | ⟨hcons, -⟩
  · rw [htokens, heq] at hnil
    cases hnil
  · rw [htokens] at hcons
    obtain ⟨rfl, -⟩ := List.cons.inj (heq.symm.trans hcons)
    exact ⟨hcons, hc⟩

theorem peek_false (hnul : 0 ∉ buf) {toks : List UInt8} (htoks : toks ⊆ symbols)
    (h : ∀ t ∈ (tokensFrom buf s).head?, ∀ c ∈ toks, t.tok.byte ≠ some c) :
    (peek buf s toks).1 = false := by
  rw [Bool.eq_false_iff]
  intro htrue
  obtain ⟨heq, c, hc, hbyte⟩ := peek_true hnul htoks htrue
  exact h _ (by rw [heq]; rfl) c hc hbyte

theorem peek_tokens (hnul : 0 ∉ buf) {toks : List UInt8} (htoks : toks ⊆ symbols) :
    tokensFrom buf (peek buf s toks).2 = tokensFrom buf s :=
  (peek_spec hnul s htoks).1

theorem gettoken_cons (hnul : 0 ∉ buf) {t : Token} {ts : List Token}
    (h : tokensFrom buf s = t :: ts) :
    (gettoken buf s).tok = t.tok ∧ (gettoken buf s).slice = t.slice ∧
      tokensFrom buf (gettoken buf s).s = ts := by
  rcases gettoken_spec hnul s with ⟨hnil, -⟩ | ⟨hcons, -⟩
  · rw [h] at hnil
    cases hnil
  · obtain ⟨rfl, htail⟩ := List.cons.inj (h.symm.trans hcons)
    exact ⟨rfl, rfl, htail.symm⟩

theorem peek_cons (hnul : 0 ∉ buf) {toks : List UInt8} (htoks : toks ⊆ symbols) {t : Token}
    {ts : List Token} {c : UInt8} (h : tokensFrom buf s = t :: ts) (hc : c ∈ toks)
    (hbyte : t.tok.byte = some c) : (peek buf s toks).1 = true :=
  (peek_spec hnul s htoks).2.mpr ⟨t, ts, h, c, hc, hbyte⟩

theorem scan_le (p : UInt8 → Bool) (h : s ≤ buf.length) : scan p buf s ≤ buf.length := by
  have hlen := (List.takeWhile_prefix p (l := buf.drop s)).length_le
  rw [List.length_drop] at hlen
  rw [scan]
  omega

theorem lt_of_byteAt (h : byteAt buf s ≠ 0) : s < buf.length := by
  by_contra hge
  rw [byteAt_eq, List.drop_eq_nil_of_le (by omega)] at h
  exact h rfl

theorem gettoken_le (h : s ≤ buf.length) : (gettoken buf s).s ≤ buf.length := by
  refine scan_le isSpace ?_
  have hq := scan_le isSpace h
  generalize scan isSpace buf s = q at hq ⊢
  simp only [tokenAt]
  by_cases hzero : byteAt buf q = 0
  · rw [if_pos hzero]
    exact hq
  · have hlt := lt_of_byteAt hzero
    rw [if_neg hzero]
    split_ifs with hgt hgt'
    · have := lt_of_byteAt (hgt' ▸ by decide : byteAt buf (q + 1) ≠ 0)
      dsimp only
      omega
    · exact hlt
    · split
      · exact hlt
      · exact scan_le isWord hq

theorem peek_le {toks : List UInt8} (h : s ≤ buf.length) : (peek buf s toks).2 ≤ buf.length :=
  scan_le isSpace h

end lexer

end Sh

end Xv6
