import Xv6.Sh.Grammar

/-! The parser accepts every command of the grammar, and no other. -/
namespace Xv6

namespace Sh

section accept

variable {buf : List UInt8} {s fuel : ℕ}

/-- The other direction: what is derived is read, if the tokens behind it may follow. -/
structure AllAccept (buf : List UInt8) (fuel : ℕ) : Prop where
  line : ∀ s used rest c, Line used c → tokensFrom buf s = used ++ rest → Follow [.rparen] rest →
    4 * (tokensFrom buf s).length + 4 ≤ fuel →
    ∃ s', parseline buf fuel s = .ok (c, s') ∧ tokensFrom buf s' = rest
  pipe : ∀ s used rest c, Pipe used c → tokensFrom buf s = used ++ rest →
    Follow [.rparen, .amp, .semi] rest → 4 * (tokensFrom buf s).length + 3 ≤ fuel →
    ∃ s', parsepipe buf fuel s = .ok (c, s') ∧ tokensFrom buf s' = rest
  exec : ∀ s used rest c, Exec used c → tokensFrom buf s = used ++ rest →
    Follow [.bar, .rparen, .amp, .semi] rest → 4 * (tokensFrom buf s).length + 2 ≤ fuel →
    ∃ s', parseexec buf fuel s = .ok (c, s') ∧ tokensFrom buf s' = rest
  block : ∀ s t l t' r rest c rs, t.tok = .lparen → Line l c → t'.tok = .rparen → Redirs r rs →
    tokensFrom buf s = t :: (l ++ t' :: (r ++ rest)) → Follow [.bar, .rparen, .amp, .semi] rest →
    4 * (tokensFrom buf s).length + 1 ≤ fuel →
    ∃ s', parseblock buf fuel s = .ok (wrap c rs, s') ∧ tokensFrom buf s' = rest

theorem follow_cons {toks : List Tok} {t : Token} {ts : List Token} (h : t.tok ∈ toks) :
    Follow toks (t :: ts) := by
  intro t' ht'
  exact Option.some.inj ht' ▸ h

theorem Follow.mono {toks toks' : List Tok} {ts : List Token} (h : Follow toks ts)
    (hsub : toks ⊆ toks') : Follow toks' ts :=
  fun t ht => hsub (h t ht)

theorem follow_amps {as rest : List Token} {toks : List Tok} (ha : ∀ t ∈ as, t.tok = .amp)
    (h : Follow toks rest) (hamp : .amp ∈ toks) : Follow toks (as ++ rest) := by
  cases as with
  | nil => exact h
  | cons t as => exact follow_cons (ha t List.mem_cons_self ▸ hamp)

theorem take_symbol (hnul : 0 ∉ buf) {c : UInt8} (hc : c ∈ symbols) {t : Token} {ts : List Token}
    (hbyte : t.tok.byte = some c) (hs : tokensFrom buf s = t :: ts) :
    (peek buf s [c]).1 = true ∧ tokensFrom buf (gettoken buf (peek buf s [c]).2).s = ts := by
  have hsub : [c] ⊆ symbols := by simpa using hc
  refine ⟨peek_cons hnul hsub hs (List.mem_singleton_self c) hbyte, ?_⟩
  exact (gettoken_cons hnul ((peek_tokens hnul hsub).trans hs)).2.2

theorem skip_symbol (hnul : 0 ∉ buf) {c : UInt8} (hc : c ∈ symbols) {toks : List Tok}
    {rest : List Token} (hs : tokensFrom buf s = rest) (hrest : Follow toks rest)
    (hne : ∀ tok ∈ toks, tok.byte ≠ some c) :
    (peek buf s [c]).1 = false ∧ tokensFrom buf (peek buf s [c]).2 = rest := by
  have hsub : [c] ⊆ symbols := by simpa using hc
  refine ⟨peek_false hnul hsub ?_, (peek_tokens hnul hsub).trans hs⟩
  rw [hs]
  exact hrest.byte_ne (by simpa using hne)

namespace AllAccept

variable (h : AllAccept buf fuel)

include h

theorem line_succ (hnul : 0 ∉ buf) (s : ℕ) (used rest : List Token) (c : Cmd) (hline : Line used c)
    (hs : tokensFrom buf s = used ++ rest) (hrest : Follow [.rparen] rest)
    (hfuel : 4 * (tokensFrom buf s).length + 4 ≤ fuel + 1) :
    ∃ s', parseline buf (fuel + 1) s = .ok (c, s') ∧ tokensFrom buf s' = rest := by
  rw [parseline_succ]
  cases hline with
  | @last p as c hpipe hamps =>
    rw [List.append_assoc] at hs
    have hlen := congrArg List.length hs
    simp only [List.length_append] at hlen
    obtain ⟨s₁, hok₁, hs₁⟩ := h.pipe s p (as ++ rest) c hpipe hs
      (follow_amps hamps (hrest.mono (by decide)) (by decide)) (by omega)
    obtain ⟨s₂, hok₂, hs₂⟩ := parsebacks_complete hnul c hamps hs₁ (hrest.byte_ne (by decide))
      (by omega : as.length < fuel)
    obtain ⟨hpeek, hs₃⟩ := skip_symbol hnul (by decide) hs₂ hrest (c := SEMI) (by decide)
    refine ⟨_, ?_, hs₃⟩
    rw [hok₁]
    dsimp only [Except.bind]
    rw [hok₂]
    dsimp only [Except.bind]
    rw [hpeek, if_neg (by simp)]
  | @more p as l c d t hpipe hamps ht hl =>
    have hs' : tokensFrom buf s = p ++ (as ++ t :: (l ++ rest)) := by rw [hs]; simp
    have hlen := congrArg List.length hs'
    simp only [List.length_append, List.length_cons] at hlen
    have hsemi : Follow [.semi] (t :: (l ++ rest)) := follow_cons (by simp [ht])
    obtain ⟨s₁, hok₁, hs₁⟩ := h.pipe s p _ c hpipe hs'
      (follow_amps hamps (hsemi.mono (by decide)) (by decide)) (by omega)
    obtain ⟨s₂, hok₂, hs₂⟩ := parsebacks_complete hnul c hamps hs₁ (hsemi.byte_ne (by decide))
      (by omega : as.length < fuel)
    obtain ⟨hpeek, hs₃⟩ := take_symbol hnul (by decide) (c := SEMI) (by rw [ht]; rfl) hs₂
    obtain ⟨s', hok, hs₄⟩ := h.line _ l rest d hl hs₃ hrest
      (by rw [hs₃, List.length_append]; omega)
    refine ⟨s', ?_, hs₄⟩
    rw [hok₁]
    dsimp only [Except.bind]
    rw [hok₂]
    dsimp only [Except.bind]
    rw [hpeek, if_pos rfl, hok]

theorem pipe_succ (hnul : 0 ∉ buf) (s : ℕ) (used rest : List Token) (c : Cmd) (hpipe : Pipe used c)
    (hs : tokensFrom buf s = used ++ rest) (hrest : Follow [.rparen, .amp, .semi] rest)
    (hfuel : 4 * (tokensFrom buf s).length + 3 ≤ fuel + 1) :
    ∃ s', parsepipe buf (fuel + 1) s = .ok (c, s') ∧ tokensFrom buf s' = rest := by
  rw [parsepipe_succ]
  cases hpipe with
  | last hexec =>
    obtain ⟨s₁, hok₁, hs₁⟩ := h.exec s used rest c hexec hs (hrest.mono (by decide)) (by omega)
    obtain ⟨hpeek, hs₂⟩ := skip_symbol hnul (by decide) hs₁ hrest (c := BAR) (by decide)
    refine ⟨_, ?_, hs₂⟩
    rw [hok₁]
    dsimp only [Except.bind]
    rw [hpeek, if_neg (by simp)]
  | @more e p c d t hexec ht hp =>
    have hs' : tokensFrom buf s = e ++ t :: (p ++ rest) := by rw [hs]; simp
    have hlen := congrArg List.length hs'
    simp only [List.length_append, List.length_cons] at hlen
    obtain ⟨s₁, hok₁, hs₁⟩ := h.exec s e _ c hexec hs' (follow_cons (by simp [ht])) (by omega)
    obtain ⟨hpeek, hs₂⟩ := take_symbol hnul (by decide) (c := BAR) (by rw [ht]; rfl) hs₁
    obtain ⟨s', hok, hs₃⟩ := h.pipe _ p rest d hp hs₂ hrest (by rw [hs₂, List.length_append]; omega)
    refine ⟨s', ?_, hs₃⟩
    rw [hok₁]
    dsimp only [Except.bind]
    rw [hpeek, if_pos rfl, hok]

theorem exec_succ (hnul : 0 ∉ buf) (s : ℕ) (used rest : List Token) (c : Cmd) (hexec : Exec used c)
    (hs : tokensFrom buf s = used ++ rest) (hrest : Follow [.bar, .rparen, .amp, .semi] rest)
    (hfuel : 4 * (tokensFrom buf s).length + 2 ≤ fuel + 1) :
    ∃ s', parseexec buf (fuel + 1) s = .ok (c, s') ∧ tokensFrom buf s' = rest := by
  rw [parseexec_succ]
  cases hexec with
  | @block l r c rs t t' ht hl ht' hr =>
    have hs' : tokensFrom buf s = t :: (l ++ t' :: (r ++ rest)) := by rw [hs]; simp
    obtain ⟨hpeek, -⟩ := take_symbol hnul (by decide) (c := LPAREN) (by rw [ht]; rfl) hs'
    have htokens := peek_tokens (s := s) hnul (by decide : [LPAREN] ⊆ symbols)
    rw [hpeek, if_pos rfl]
    exact h.block _ t l t' r rest c rs ht hl ht' hr (htokens.trans hs') hrest
      (by rw [htokens]; omega)
  | @simple r ts ws rs rs' hr hw hargs =>
    rw [List.append_assoc] at hs
    have hlen := congrArg List.length hs
    simp only [List.length_append] at hlen
    have hwords : Follow [.word, .bar, .rparen, .amp, .semi] (ts ++ rest) := by
      cases hw with
      | nil => exact hrest.mono (by decide)
      | cons hword _ _ => exact follow_cons (by simp [hword])
    have hpeek : (peek buf s [LPAREN]).1 = false := by
      refine peek_false hnul (by decide) ?_
      rw [hs]
      cases hr with
      | nil => exact hwords.byte_ne (by decide)
      | @cons t f r₁ ts₁ rs₁ hredir _ _ =>
        intro t' ht' b hb
        obtain rfl := Option.some.inj ht'
        obtain ⟨b', hb', hbyte⟩ := byte_redirOf hredir
        rw [hbyte]
        rintro heq
        obtain rfl := Option.some.inj heq
        obtain rfl := List.mem_singleton.mp hb
        revert hb'
        decide
    have htokens := peek_tokens (s := s) hnul (by decide : [LPAREN] ⊆ symbols)
    obtain ⟨s₁, hok₁, hs₁⟩ := parseredirs_complete hnul hr (htokens.trans hs)
      (hwords.byte_ne (by decide)) (by omega : r.length < fuel)
    obtain ⟨s', hok, hs₂⟩ := parseargs_complete hnul hw [] rs hs₁ hrest (by simpa using hargs)
      (by omega : ts.length < fuel)
    refine ⟨s', ?_, hs₂⟩
    rw [hpeek, if_neg (by simp), hok₁]
    exact hok

theorem block_succ (hnul : 0 ∉ buf) (s : ℕ) (t : Token) (l : List Token) (t' : Token)
    (r rest : List Token) (c : Cmd) (rs : List Redir) (ht : t.tok = .lparen) (hl : Line l c)
    (ht' : t'.tok = .rparen) (hr : Redirs r rs)
    (hs : tokensFrom buf s = t :: (l ++ t' :: (r ++ rest)))
    (hrest : Follow [.bar, .rparen, .amp, .semi] rest)
    (hfuel : 4 * (tokensFrom buf s).length + 1 ≤ fuel + 1) :
    ∃ s', parseblock buf (fuel + 1) s = .ok (wrap c rs, s') ∧ tokensFrom buf s' = rest := by
  have hlen := congrArg List.length hs
  simp only [List.length_append, List.length_cons] at hlen
  obtain ⟨hpeek, hs₁⟩ := take_symbol hnul (by decide) (c := LPAREN) (by rw [ht]; rfl) hs
  obtain ⟨s₂, hok₂, hs₂⟩ := h.line _ l _ c hl hs₁ (follow_cons (by simp [ht']))
    (by rw [hs₁]; simp only [List.length_append, List.length_cons]; omega)
  obtain ⟨hpeek', hs₃⟩ := take_symbol hnul (by decide) (c := RPAREN) (by rw [ht']; rfl) hs₂
  obtain ⟨s', hok, hs₄⟩ := parseredirs_complete hnul hr hs₃ (hrest.byte_ne (by decide))
    (by omega : r.length < fuel)
  refine ⟨s', ?_, hs₄⟩
  rw [parseblock_succ, hpeek, if_neg (by simp), hok₂]
  dsimp only [Except.bind]
  rw [hpeek', if_neg (by simp), hok]

end AllAccept

theorem allAccept (hnul : 0 ∉ buf) (fuel : ℕ) : AllAccept buf fuel := by
  induction fuel with
  | zero =>
    exact ⟨fun _ _ _ _ _ _ _ hf => by omega, fun _ _ _ _ _ _ _ hf => by omega,
      fun _ _ _ _ _ _ _ hf => by omega, fun _ _ _ _ _ _ _ _ _ _ _ _ _ _ hf => by omega⟩
  | succ fuel ih =>
    exact ⟨ih.line_succ hnul, ih.pipe_succ hnul, ih.exec_succ hnul, ih.block_succ hnul⟩

def Within {α : Type} (buf : List UInt8) (r : Except Stop (α × ℕ)) : Prop :=
  ∀ a s, r = .ok (a, s) → s ≤ buf.length

theorem Within.ok {α : Type} {a : α} (h : s ≤ buf.length) :
    Within buf (.ok (a, s) : Except Stop (α × ℕ)) := by
  intro a' s' heq
  obtain ⟨-, rfl⟩ := Prod.mk.inj (Except.ok.inj heq)
  exact h

theorem Within.error {α : Type} (e : Stop) : Within buf (.error e : Except Stop (α × ℕ)) := by
  intro a s heq
  cases heq

theorem Within.bind {α β : Type} {r : Except Stop (α × ℕ)} {f : α × ℕ → Except Stop (β × ℕ)}
    (h : Within buf r) (hf : ∀ a s, s ≤ buf.length → Within buf (f (a, s))) :
    Within buf (r.bind f) := by
  cases r with
  | error e => exact .error e
  | ok p => exact hf p.1 p.2 (h p.1 p.2 rfl)

theorem parseredirs_within (h : s ≤ buf.length) : Within buf (parseredirs buf fuel s) := by
  induction fuel generalizing s with
  | zero => exact .error _
  | succ fuel ih =>
    simp only [parseredirs]
    split_ifs
    · exact .error _
    · exact (ih (gettoken_le (gettoken_le (peek_le h)))).bind fun _ _ hs => .ok hs
    · exact .ok (peek_le h)

theorem parseargs_within {argv : List (Option Slice)} {argc : ℕ} {rs : List Redir}
    (h : s ≤ buf.length) : Within buf (parseargs buf fuel argv argc rs s) := by
  induction fuel generalizing s argv argc rs with
  | zero => exact .error _
  | succ fuel ih =>
    simp only [parseargs]
    split_ifs
    · exact .ok (peek_le h)
    · exact .ok (gettoken_le (peek_le h))
    · exact .error _
    · exact .error _
    · exact (parseredirs_within (gettoken_le (peek_le h))).bind fun _ _ hs => ih hs

theorem parsebacks_within {c : Cmd} (h : s ≤ buf.length) :
    Within buf (parsebacks buf fuel c s) := by
  induction fuel generalizing s c with
  | zero => exact .error _
  | succ fuel ih =>
    simp only [parsebacks]
    split_ifs
    · exact ih (gettoken_le (peek_le h))
    · exact .ok (peek_le h)

theorem all_within (fuel : ℕ) : ∀ s ≤ buf.length,
    Within buf (parseline buf fuel s) ∧ Within buf (parsepipe buf fuel s) ∧
      Within buf (parseexec buf fuel s) ∧ Within buf (parseblock buf fuel s) := by
  induction fuel with
  | zero =>
    intro s _
    rw [parseline, parsepipe, parseexec, parseblock]
    exact ⟨.error _, .error _, .error _, .error _⟩
  | succ fuel ih =>
    intro s h
    rw [parseline_succ, parsepipe_succ, parseexec_succ, parseblock_succ]
    refine ⟨(ih s h).2.1.bind fun _ _ hs => (parsebacks_within hs).bind fun _ _ hs => ?_,
      (ih s h).2.2.1.bind fun _ _ hs => ?_, ?_, ?_⟩
    · split_ifs
      · exact (ih _ (gettoken_le (peek_le hs))).1.bind fun _ _ hs => .ok hs
      · exact .ok (peek_le hs)
    · split_ifs
      · exact (ih _ (gettoken_le (peek_le hs))).2.1.bind fun _ _ hs => .ok hs
      · exact .ok (peek_le hs)
    · split_ifs
      · exact (ih _ (peek_le h)).2.2.2
      · exact (parseredirs_within (peek_le h)).bind fun _ _ hs => parseargs_within hs
    · split_ifs
      · exact .error _
      · refine (ih _ (gettoken_le (peek_le h))).1.bind fun _ _ hs => ?_
        split_ifs
        · exact .error _
        · exact (parseredirs_within (gettoken_le (peek_le hs))).bind fun _ _ hs => .ok hs

theorem parsecmd_eq : parsecmd fuel buf =
    (parseline buf fuel 0).bind fun r =>
      if (peek buf r.2 []).2 ≠ buf.length then .error (.panic "syntax")
      else .ok (r.1, nulterminate r.1 (buf ++ [0])) :=
  rfl

theorem tokensFrom_eq_nil (hnul : 0 ∉ buf) (h : s ≤ buf.length) :
    tokensFrom buf s = [] ↔ (peek buf s []).2 = buf.length := by
  have hle : (peek buf s []).2 ≤ buf.length := peek_le h
  rw [← peek_tokens hnul (List.nil_subset symbols)]
  change tokensFrom buf (scan isSpace buf s) = [] ↔ scan isSpace buf s = buf.length
  change scan isSpace buf s ≤ buf.length at hle
  cases hs : buf.drop (scan isSpace buf s) with
  | nil =>
    have hge := List.drop_eq_nil_iff.mp hs
    rw [tokensFrom, hs, lex]
    exact iff_of_true rfl (Nat.le_antisymm hle hge)
  | cons c cs =>
    have hc : c ≠ 0 := by
      rintro rfl
      exact hnul (List.mem_of_mem_drop (hs ▸ List.mem_cons_self))
    rw [(tokenAt_cons hs (not_isSpace_of_scan hs) hc).1]
    refine iff_of_false (List.cons_ne_nil _ _) fun heq => ?_
    rw [heq, List.drop_length] at hs
    cases hs

theorem parsecmd_accepts (hnul : 0 ∉ buf) (hfuel : 4 * (lex 0 buf).length + 4 ≤ fuel) {c : Cmd}
    (hline : Line (lex 0 buf) c) : parsecmd fuel buf = .ok (c, nulterminate c (buf ++ [0])) := by
  obtain ⟨s, hok, hs⟩ := (allAccept hnul fuel).line 0 (lex 0 buf) [] c hline
    (List.append_nil _).symm (fun t ht => by cases ht) hfuel
  have hle := (all_within fuel 0 (Nat.zero_le _)).1 c s hok
  rw [parsecmd_eq, hok]
  dsimp only [Except.bind]
  rw [if_neg (not_not.mpr ((tokensFrom_eq_nil hnul hle).mp hs))]

theorem parsecmd_parses (hnul : 0 ∉ buf) (hfuel : 4 * (lex 0 buf).length + 4 ≤ fuel) :
    (∃ c, Line (lex 0 buf) c) ∨ ∃ msg, parsecmd fuel buf = .error (.panic msg) := by
  rcases (allParse hnul fuel).line 0 hfuel with ⟨c, s, used, hok, hs, hline⟩ | ⟨msg, herr⟩
  · by_cases hstop : (peek buf s []).2 = buf.length
    · have hle := (all_within fuel 0 (Nat.zero_le _)).1 c s hok
      rw [(tokensFrom_eq_nil hnul hle).mpr hstop, List.append_nil] at hs
      have hused : lex 0 buf = used := hs
      exact .inl ⟨c, hused ▸ hline⟩
    · refine .inr ⟨"syntax", ?_⟩
      rw [parsecmd_eq, hok]
      exact if_pos hstop
  · exact .inr ⟨msg, by rw [parsecmd_eq, herr]; rfl⟩

theorem parsecmd_ok (hnul : 0 ∉ buf) (hfuel : 4 * (lex 0 buf).length + 4 ≤ fuel) {c : Cmd}
    {mem : List UInt8} (hok : parsecmd fuel buf = .ok (c, mem)) :
    Line (lex 0 buf) c ∧ mem = nulterminate c (buf ++ [0]) := by
  rcases parsecmd_parses hnul hfuel with ⟨c', hline⟩ | ⟨msg, herr⟩
  · have heq := hok.symm.trans (parsecmd_accepts hnul hfuel hline)
    obtain ⟨rfl, hmem⟩ := Prod.mk.inj (Except.ok.inj heq)
    exact ⟨hline, hmem⟩
  · cases hok.symm.trans herr

/-- The parser terminates on every command string without a NUL. It accepts exactly the strings
whose tokens the grammar derives, and returns the one tree that they have; on the others it
panics. -/
theorem parsecmd_iff_grammar (buf : List UInt8) (hnul : 0 ∉ buf) (fuel : ℕ)
    (hfuel : 4 * (lex 0 buf).length + 4 ≤ fuel) :
    (∀ c, (∃ mem, parsecmd fuel buf = .ok (c, mem)) ↔ Line (lex 0 buf) c) ∧
      (∀ c c', Line (lex 0 buf) c → Line (lex 0 buf) c' → c = c') ∧
      ((¬∃ c, Line (lex 0 buf) c) → ∃ msg, parsecmd fuel buf = .error (.panic msg)) := by
  refine ⟨fun c => ⟨?_, fun h => ⟨_, parsecmd_accepts hnul hfuel h⟩⟩, fun c c' h h' => ?_,
    (parsecmd_parses hnul hfuel).resolve_left⟩
  · rintro ⟨mem, hok⟩
    exact (parsecmd_ok hnul hfuel hok).1
  · have heq := (parsecmd_accepts hnul hfuel h).symm.trans (parsecmd_accepts hnul hfuel h')
    exact congrArg Prod.fst (Except.ok.inj heq)

def pipeline : List UInt8 := [0x61, BAR, 0x62, GREATER, 0x63, AMP]

def pipelineTree : Cmd :=
  .back (.pipe (.exec (argvOf [⟨0, 1⟩]))
    (.redir (.exec (argvOf [⟨2, 3⟩])) ⟨⟨4, 5⟩, O_WRONLY ||| O_CREATE, 1⟩))

theorem parsecmd_iff_grammar_pipeline :
    parsecmd 32 pipeline = .ok (pipelineTree, [0x61, 0, 0x62, 0, 0x63, 0, 0]) ∧
      Line (lex 0 pipeline) pipelineTree := by
  have hrun : parsecmd 32 pipeline = .ok (pipelineTree, [0x61, 0, 0x62, 0, 0x63, 0, 0]) := by
    decide +kernel
  have hiff := (parsecmd_iff_grammar pipeline (by decide) 32 (by decide +kernel)).1
  exact ⟨hrun, (hiff pipelineTree).mp ⟨_, hrun⟩⟩

end accept

end Sh

end Xv6
