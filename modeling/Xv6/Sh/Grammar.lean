import Mathlib.Logic.Function.Iterate
import Xv6.Sh.Lexer

/-! The grammar of the shell, and that the parser accepts exactly it. -/
namespace Xv6

namespace Sh

/-- `redirs ::= (('<' | '>' | '>>') word)*`. -/
inductive Redirs : List Token → List Redir → Prop where
  | nil : Redirs [] []
  | cons {t f : Token} {r : Redir} {ts : List Token} {rs : List Redir}
      (hr : redirOf t.tok f.slice = some r) (hf : f.tok = .word) (h : Redirs ts rs) :
      Redirs (t :: f :: ts) (r :: rs)

/-- `(word redirs)*`, with the words and the redirections in order. -/
inductive Words : List Token → List Slice → List Redir → Prop where
  | nil : Words [] [] []
  | cons {w : Token} {r ts : List Token} {ws : List Slice} {rs rs' : List Redir}
      (hw : w.tok = .word) (hr : Redirs r rs) (h : Words ts ws rs') :
      Words (w :: (r ++ ts)) (w.slice :: ws) (rs ++ rs')

def argvOf (ws : List Slice) : List (Option Slice) :=
  ws.map some ++ List.replicate (MAXARGS - ws.length) none

mutual

/-- `line ::= pipe '&'* [';' line]`. -/
inductive Line : List Token → Cmd → Prop where
  | last {p as : List Token} {c : Cmd} (hp : Pipe p c) (ha : ∀ t ∈ as, t.tok = .amp) :
      Line (p ++ as) (Cmd.back^[as.length] c)
  | more {p as l : List Token} {c d : Cmd} {t : Token} (hp : Pipe p c)
      (ha : ∀ t ∈ as, t.tok = .amp) (ht : t.tok = .semi) (hl : Line l d) :
      Line (p ++ (as ++ t :: l)) (.list (Cmd.back^[as.length] c) d)

/-- `pipe ::= exec ['|' pipe]`. -/
inductive Pipe : List Token → Cmd → Prop where
  | last {e : List Token} {c : Cmd} (he : Exec e c) : Pipe e c
  | more {e p : List Token} {c d : Cmd} {t : Token} (he : Exec e c) (ht : t.tok = .bar)
      (hp : Pipe p d) : Pipe (e ++ t :: p) (.pipe c d)

/-- `exec ::= '(' line ')' redirs | redirs (word redirs)*`, with less than `MAXARGS` words. -/
inductive Exec : List Token → Cmd → Prop where
  | block {l r : List Token} {c : Cmd} {rs : List Redir} {t t' : Token} (ht : t.tok = .lparen)
      (hl : Line l c) (ht' : t'.tok = .rparen) (hr : Redirs r rs) :
      Exec (t :: (l ++ t' :: r)) (wrap c rs)
  | simple {r ts : List Token} {ws : List Slice} {rs rs' : List Redir} (hr : Redirs r rs)
      (hw : Words ts ws rs') (hargs : ws.length < MAXARGS) :
      Exec (r ++ ts) (wrap (.exec (argvOf ws)) (rs ++ rs'))

end

/-- What follows a part of the command starts with one of the tokens, or there is nothing. -/
def Follow (toks : List Tok) (ts : List Token) : Prop := ∀ t ∈ ts.head?, t.tok ∈ toks

/-- A part of the parser either reads tokens that `G` derives, or panics. -/
def Parses {α : Type} (G : List Token → α → Prop) (buf : List UInt8) (s : ℕ)
    (r : Except Stop (α × ℕ)) : Prop :=
  (∃ a s' used, r = .ok (a, s') ∧ tokensFrom buf s = used ++ tokensFrom buf s' ∧ G used a) ∨
    ∃ msg, r = .error (.panic msg)

section parser

variable {buf : List UInt8} {s fuel : ℕ}

theorem redirOf_byte {tok : Tok} {c : UInt8} (hc : c ∈ [LESS, GREATER]) (h : tok.byte = some c)
    (file : Slice) : ∃ r, redirOf tok file = some r := by
  cases tok <;>
    simp [Tok.byte, BAR, LPAREN, RPAREN, SEMI, AMP, LESS, GREATER, redirOf] at h hc ⊢ <;>
    subst h <;> simp at hc

theorem byte_redirOf {tok : Tok} {file : Slice} {r : Redir} (h : redirOf tok file = some r) :
    ∃ c ∈ [LESS, GREATER], tok.byte = some c := by
  cases tok <;> simp [redirOf, Tok.byte] at h ⊢

theorem parseredirs_parses (hnul : 0 ∉ buf) (hfuel : (tokensFrom buf s).length < fuel) :
    Parses Redirs buf s (parseredirs buf fuel s) := by
  induction fuel generalizing s with
  | zero => omega
  | succ fuel ih =>
    simp only [parseredirs]
    cases hpeek : (peek buf s [LESS, GREATER]).1 with
    | false =>
      rw [if_neg (by simp)]
      exact .inl ⟨[], _, [], rfl, (peek_tokens hnul (by decide)).symm, .nil⟩
    | true =>
      rw [if_pos rfl]
      obtain ⟨htokens, c, hc, hbyte⟩ := peek_true hnul (by decide) hpeek
      generalize gettoken buf (peek buf s [LESS, GREATER]).2 = t at htokens hbyte ⊢
      have hspec := gettoken_spec hnul t.s
      generalize gettoken buf t.s = g at hspec ⊢
      rcases hspec with ⟨-, heof, -⟩ | ⟨hcons, -⟩
      · rw [if_pos (by rw [heof]; decide)]
        exact .inr ⟨_, rfl⟩
      · split_ifs with hword
        · exact .inr ⟨_, rfl⟩
        · rw [not_not] at hword
          rw [htokens, hcons] at hfuel
          simp only [List.length_cons] at hfuel
          rcases ih (by omega : (tokensFrom buf g.s).length < fuel) with
            ⟨rs, s', used, hok, hused, hderiv⟩ | ⟨msg, herr⟩
          · obtain ⟨r, hr⟩ := redirOf_byte hc hbyte g.slice
            refine .inl ⟨r :: rs, s', t.token :: g.token :: used, ?_, ?_, .cons hr hword hderiv⟩
            · rw [hok, hr]
              rfl
            · rw [htokens, hcons, hused]
              rfl
          · exact .inr ⟨msg, by rw [herr]; rfl⟩

theorem parseredirs_complete (hnul : 0 ∉ buf) {used rest : List Token} {rs : List Redir}
    (h : Redirs used rs) (hs : tokensFrom buf s = used ++ rest)
    (hrest : ∀ t ∈ rest.head?, ∀ c ∈ [LESS, GREATER], t.tok.byte ≠ some c)
    (hfuel : used.length < fuel) :
    ∃ s', parseredirs buf fuel s = .ok (rs, s') ∧ tokensFrom buf s' = rest := by
  induction h generalizing s fuel with
  | nil =>
    obtain ⟨fuel, rfl⟩ : ∃ n, fuel = n + 1 := ⟨fuel - 1, by omega⟩
    rw [List.nil_append] at hs
    refine ⟨(peek buf s [LESS, GREATER]).2, ?_, (peek_tokens hnul (by decide)).trans hs⟩
    simp only [parseredirs]
    rw [peek_false hnul (by decide) (hs ▸ hrest), if_neg (by simp)]
    rfl
  | @cons t f r ts rs hr hf _ ih =>
    obtain ⟨fuel, rfl⟩ : ∃ n, fuel = n + 1 := ⟨fuel - 1, by omega⟩
    obtain ⟨c, hc, hbyte⟩ := byte_redirOf hr
    have hpeek := peek_cons hnul (by decide) hs hc hbyte
    obtain ⟨htok, -, hnext⟩ := gettoken_cons hnul
      ((peek_tokens hnul (by decide : [LESS, GREATER] ⊆ symbols)).trans hs)
    obtain ⟨htok', hslice', hnext'⟩ := gettoken_cons hnul hnext
    simp only [List.length_cons] at hfuel
    obtain ⟨s', hok, hrest'⟩ := ih hnext' (by omega : ts.length < fuel)
    refine ⟨s', ?_, hrest'⟩
    simp only [parseredirs]
    rw [hpeek, if_pos rfl, if_neg (by rw [htok', hf]; simp), hok, htok, hslice', hr]
    rfl

theorem argvOf_set_none {args : List Slice} (h : args.length < MAXARGS) :
    (argvOf args).set args.length none = argvOf args := by
  obtain ⟨n, hn⟩ : ∃ n, MAXARGS - args.length = n + 1 := ⟨MAXARGS - args.length - 1, by omega⟩
  rw [argvOf, hn, List.replicate_succ, List.set_append, if_neg (by simp)]
  simp

theorem argvOf_set_some {args : List Slice} (h : args.length < MAXARGS) (w : Slice) :
    (argvOf args).set args.length (some w) = argvOf (args ++ [w]) := by
  obtain ⟨n, hn⟩ : ∃ n, MAXARGS - args.length = n + 1 := ⟨MAXARGS - args.length - 1, by omega⟩
  have hn' : MAXARGS - (args ++ [w]).length = n := by
    rw [List.length_append, List.length_singleton]
    omega
  rw [argvOf, argvOf, hn, hn', List.replicate_succ, List.set_append, if_neg (by simp)]
  simp

/-- The words and redirections behind those that the loop of `parseexec` has. -/
def ArgsFrom (args : List Slice) (rs : List Redir) (used : List Token) (c : Cmd) : Prop :=
  ∃ ws rs', Words used ws rs' ∧ (args ++ ws).length < MAXARGS ∧
    c = wrap (.exec (argvOf (args ++ ws))) (rs ++ rs')

theorem ArgsFrom.nil {args : List Slice} (h : args.length < MAXARGS) (rs : List Redir) :
    ArgsFrom args rs [] (wrap (.exec ((argvOf args).set args.length none)) rs) :=
  ⟨[], [], .nil, by simpa using h, by simp [argvOf_set_none h]⟩

theorem parseargs_parses (hnul : 0 ∉ buf) {args : List Slice} (hargs : args.length < MAXARGS)
    (rs : List Redir) (hfuel : (tokensFrom buf s).length < fuel) :
    Parses (ArgsFrom args rs) buf s (parseargs buf fuel (argvOf args) args.length rs s) := by
  induction fuel generalizing s args rs with
  | zero => omega
  | succ fuel ih =>
    simp only [parseargs]
    have htokens := peek_tokens (s := s) hnul (by decide : [BAR, RPAREN, AMP, SEMI] ⊆ symbols)
    cases hpeek : (peek buf s [BAR, RPAREN, AMP, SEMI]).1 with
    | true =>
      rw [if_pos rfl]
      exact .inl ⟨_, _, [], rfl, htokens.symm, .nil hargs rs⟩
    | false =>
      rw [if_neg (by simp)]
      have hspec := gettoken_spec hnul (peek buf s [BAR, RPAREN, AMP, SEMI]).2
      generalize gettoken buf (peek buf s [BAR, RPAREN, AMP, SEMI]).2 = g at hspec ⊢
      rw [htokens] at hspec
      rcases hspec with ⟨hnil, heof, hnil'⟩ | ⟨hcons, hne, -⟩
      · rw [if_pos heof]
        exact .inl ⟨_, _, [], rfl, by rw [hnil, hnil']; rfl, .nil hargs rs⟩
      · rw [if_neg hne]
        split_ifs with hword hmax
        · exact .inr ⟨_, rfl⟩
        · exact .inr ⟨_, rfl⟩
        · rw [not_not] at hword
          rw [hcons, List.length_cons] at hfuel
          rcases parseredirs_parses hnul (by omega : (tokensFrom buf g.s).length < fuel) with
            ⟨rs₁, s₁, used₁, hok₁, hused₁, hredirs⟩ | ⟨msg, herr⟩
          · have hlen : (tokensFrom buf s₁).length < fuel := by
              rw [hused₁, List.length_append] at hfuel
              omega
            have hargs' : (args ++ [g.slice]).length < MAXARGS := by
              rw [List.length_append, List.length_singleton]
              omega
            have hrec := ih hargs' (rs ++ rs₁) hlen
            rw [← argvOf_set_some hargs, List.length_append, List.length_singleton] at hrec
            rw [hok₁]
            rcases hrec with ⟨c, s', used, hok, hused, ws, rs', hwords, hlt, rfl⟩ | ⟨msg, herr⟩
            · refine .inl ⟨_, s', g.token :: (used₁ ++ used), hok, ?_, g.slice :: ws, rs₁ ++ rs',
                .cons hword hredirs hwords, ?_, ?_⟩
              · rw [hcons, hused₁, hused, List.cons_append, List.append_assoc]
              · simpa using hlt
              · simp
            · exact .inr ⟨msg, herr⟩
          · exact .inr ⟨msg, by rw [herr]; rfl⟩

theorem Follow.byte_ne {toks : List Tok} {ts : List Token} {bytes : List UInt8}
    (h : Follow toks ts) (hne : toks.all fun tok => bytes.all fun c => tok.byte ≠ some c) :
    ∀ t ∈ ts.head?, ∀ c ∈ bytes, t.tok.byte ≠ some c := by
  intro t ht c hc
  have hbytes := List.all_eq_true.mp hne t.tok (h t ht)
  simpa using List.all_eq_true.mp hbytes c hc

theorem parseargs_complete (hnul : 0 ∉ buf) {used rest : List Token} {ws : List Slice}
    {rs' : List Redir} (h : Words used ws rs') (args : List Slice) (rs : List Redir)
    (hs : tokensFrom buf s = used ++ rest) (hrest : Follow [.bar, .rparen, .amp, .semi] rest)
    (hargs : args.length + ws.length < MAXARGS) (hfuel : used.length < fuel) :
    ∃ s', parseargs buf fuel (argvOf args) args.length rs s =
        .ok (wrap (.exec (argvOf (args ++ ws))) (rs ++ rs'), s') ∧ tokensFrom buf s' = rest := by
  have hsub : [BAR, RPAREN, AMP, SEMI] ⊆ symbols := by decide
  induction h generalizing s fuel args rs with
  | nil =>
    obtain ⟨fuel, rfl⟩ : ∃ n, fuel = n + 1 := ⟨fuel - 1, by omega⟩
    have hlt : args.length < MAXARGS := by simpa using hargs
    rw [List.nil_append] at hs
    simp only [parseargs, List.append_nil, argvOf_set_none hlt]
    cases rest with
    | nil =>
      rw [peek_false hnul hsub (by rw [hs]; simp), if_neg (by simp)]
      rcases gettoken_spec hnul (peek buf s [BAR, RPAREN, AMP, SEMI]).2 with
        ⟨-, heof, hnil⟩ | ⟨hcons, -⟩
      · rw [if_pos heof]
        exact ⟨_, rfl, hnil⟩
      · rw [peek_tokens hnul hsub, hs] at hcons
        cases hcons
    | cons t ts =>
      have hbyte : ∃ c ∈ [BAR, RPAREN, AMP, SEMI], t.tok.byte = some c := by
        have htok := hrest t rfl
        simp only [List.mem_cons, List.not_mem_nil, or_false] at htok
        rcases htok with heq | heq | heq | heq <;> rw [heq] <;> simp [Tok.byte]
      obtain ⟨c, hc, hbyte⟩ := hbyte
      rw [peek_cons hnul hsub hs hc hbyte, if_pos rfl]
      exact ⟨_, rfl, (peek_tokens hnul hsub).trans hs⟩
  | @cons w r ts ws rs₁ rs₂ hw hr hwords ih =>
    obtain ⟨fuel, rfl⟩ : ∃ n, fuel = n + 1 := ⟨fuel - 1, by omega⟩
    simp only [List.length_cons, List.length_append] at hargs hfuel
    have hpeek : (peek buf s [BAR, RPAREN, AMP, SEMI]).1 = false := by
      refine peek_false hnul hsub ?_
      rw [hs]
      intro t ht c _
      obtain rfl := Option.some.inj ht
      simp [hw, Tok.byte]
    obtain ⟨htok, hslice, hnext⟩ := gettoken_cons hnul ((peek_tokens hnul hsub).trans hs)
    have hnext : _ = r ++ (ts ++ rest) := hnext.trans (List.append_assoc r ts rest)
    have hfollow : ∀ t ∈ (ts ++ rest).head?, ∀ c ∈ [LESS, GREATER], t.tok.byte ≠ some c := by
      cases hwords with
      | nil => exact hrest.byte_ne (by decide)
      | cons hw' _ _ =>
        intro t ht c _
        obtain rfl := Option.some.inj ht
        simp [hw', Tok.byte]
    obtain ⟨s₁, hok₁, hs₁⟩ :=
      parseredirs_complete hnul hr hnext hfollow (by omega : r.length < fuel)
    have hlt : args.length < MAXARGS := by omega
    obtain ⟨s', hok, hrest'⟩ := ih (args ++ [w.slice]) (rs ++ rs₁) hs₁
      (by rw [List.length_append, List.length_singleton]; omega) (by omega : ts.length < fuel)
    refine ⟨s', ?_, hrest'⟩
    rw [← argvOf_set_some hlt, List.length_append, List.length_singleton] at hok
    simp only [parseargs]
    rw [hpeek, if_neg (by simp), if_neg (by rw [htok, hw]; simp), if_neg (by rw [htok, hw]; simp),
      if_neg (by omega), hok₁, hslice]
    rw [List.append_assoc, List.append_assoc] at hok
    exact hok

def Backs (c : Cmd) (used : List Token) (c' : Cmd) : Prop :=
  (∀ t ∈ used, t.tok = .amp) ∧ c' = Cmd.back^[used.length] c

theorem parsebacks_parses (hnul : 0 ∉ buf) (c : Cmd) (hfuel : (tokensFrom buf s).length < fuel) :
    Parses (Backs c) buf s (parsebacks buf fuel c s) := by
  induction fuel generalizing s c with
  | zero => omega
  | succ fuel ih =>
    simp only [parsebacks]
    cases hpeek : (peek buf s [AMP]).1 with
    | false =>
      rw [if_neg (by simp)]
      exact .inl ⟨c, _, [], rfl, (peek_tokens hnul (by decide)).symm, by simp, rfl⟩
    | true =>
      rw [if_pos rfl]
      obtain ⟨htokens, b, hb, hbyte⟩ := peek_true hnul (by decide) hpeek
      generalize gettoken buf (peek buf s [AMP]).2 = g at htokens hbyte ⊢
      rw [htokens, List.length_cons] at hfuel
      rcases ih (.back c) (by omega : (tokensFrom buf g.s).length < fuel) with
        ⟨c', s', used, hok, hused, hamps, rfl⟩ | herr
      · refine .inl ⟨_, s', g.token :: used, hok, by rw [htokens, hused]; rfl, ?_, ?_⟩
        · refine List.forall_mem_cons.mpr ⟨?_, hamps⟩
          obtain rfl := List.mem_singleton.mp hb
          change g.tok = .amp
          cases hg : g.tok <;> rw [hg] at hbyte <;> simp [Tok.byte] at hbyte <;> cases hbyte
        · rw [List.length_cons, Function.iterate_succ_apply]
      · exact .inr herr

theorem parsebacks_complete (hnul : 0 ∉ buf) {as rest : List Token} (c : Cmd)
    (hamps : ∀ t ∈ as, t.tok = .amp) (hs : tokensFrom buf s = as ++ rest)
    (hrest : ∀ t ∈ rest.head?, ∀ c ∈ [AMP], t.tok.byte ≠ some c) (hfuel : as.length < fuel) :
    ∃ s', parsebacks buf fuel c s = .ok (Cmd.back^[as.length] c, s') ∧
      tokensFrom buf s' = rest := by
  induction as generalizing s fuel c with
  | nil =>
    obtain ⟨fuel, rfl⟩ : ∃ n, fuel = n + 1 := ⟨fuel - 1, by omega⟩
    rw [List.nil_append] at hs
    refine ⟨_, ?_, (peek_tokens hnul (by decide : [AMP] ⊆ symbols)).trans hs⟩
    simp only [parsebacks]
    rw [peek_false hnul (by decide) (hs ▸ hrest), if_neg (by simp)]
    rfl
  | cons t as ih =>
    obtain ⟨fuel, rfl⟩ : ∃ n, fuel = n + 1 := ⟨fuel - 1, by omega⟩
    obtain ⟨ht, hamps⟩ := List.forall_mem_cons.mp hamps
    have hpeek := peek_cons hnul (by decide : [AMP] ⊆ symbols) hs (List.mem_singleton_self AMP)
      (by rw [ht]; rfl)
    obtain ⟨-, -, hnext⟩ := gettoken_cons hnul
      ((peek_tokens hnul (by decide : [AMP] ⊆ symbols)).trans hs)
    rw [List.length_cons] at hfuel
    obtain ⟨s', hok, hrest'⟩ := ih (.back c) hamps hnext (by omega : as.length < fuel)
    refine ⟨s', ?_, hrest'⟩
    simp only [parsebacks]
    rw [hpeek, if_pos rfl, hok, List.length_cons, Function.iterate_succ_apply]

/-- What is shown of the four functions that call each other, with enough fuel for the tokens. -/
structure AllParse (buf : List UInt8) (fuel : ℕ) : Prop where
  line : ∀ s, 4 * (tokensFrom buf s).length + 4 ≤ fuel → Parses Line buf s (parseline buf fuel s)
  pipe : ∀ s, 4 * (tokensFrom buf s).length + 3 ≤ fuel → Parses Pipe buf s (parsepipe buf fuel s)
  exec : ∀ s, 4 * (tokensFrom buf s).length + 2 ≤ fuel → Parses Exec buf s (parseexec buf fuel s)
  block : ∀ s, 4 * (tokensFrom buf s).length + 1 ≤ fuel →
    Parses Exec buf s (parseblock buf fuel s)

theorem tok_of_byte {tok : Tok} :
    (tok.byte = some SEMI → tok = .semi) ∧ (tok.byte = some BAR → tok = .bar) ∧
      (tok.byte = some LPAREN → tok = .lparen) ∧ (tok.byte = some RPAREN → tok = .rparen) := by
  cases tok <;> decide

theorem peek_symbol (hnul : 0 ∉ buf) {c : UInt8} (hc : c ∈ symbols)
    (h : (peek buf s [c]).1 = true) :
    tokensFrom buf s = (gettoken buf (peek buf s [c]).2).token ::
        tokensFrom buf (gettoken buf (peek buf s [c]).2).s ∧
      (gettoken buf (peek buf s [c]).2).tok.byte = some c := by
  obtain ⟨htokens, b, hb, hbyte⟩ := peek_true hnul (by simpa using hc) h
  obtain rfl := List.mem_singleton.mp hb
  exact ⟨htokens, hbyte⟩

theorem parseline_succ : parseline buf (fuel + 1) s =
    (parsepipe buf fuel s).bind fun r => (parsebacks buf fuel r.1 r.2).bind fun r =>
      if (peek buf r.2 [SEMI]).1 = true then
        (parseline buf fuel (gettoken buf (peek buf r.2 [SEMI]).2).s).bind fun q =>
          .ok (.list r.1 q.1, q.2)
      else .ok (r.1, (peek buf r.2 [SEMI]).2) := by
  rw [parseline]
  rfl

theorem parsepipe_succ : parsepipe buf (fuel + 1) s =
    (parseexec buf fuel s).bind fun r =>
      if (peek buf r.2 [BAR]).1 = true then
        (parsepipe buf fuel (gettoken buf (peek buf r.2 [BAR]).2).s).bind fun q =>
          .ok (.pipe r.1 q.1, q.2)
      else .ok (r.1, (peek buf r.2 [BAR]).2) := by
  rw [parsepipe]
  rfl

theorem parseexec_succ : parseexec buf (fuel + 1) s =
    if (peek buf s [LPAREN]).1 = true then parseblock buf fuel (peek buf s [LPAREN]).2
    else (parseredirs buf fuel (peek buf s [LPAREN]).2).bind fun r =>
      parseargs buf fuel (argvOf []) 0 r.1 r.2 := by
  rw [parseexec]
  rfl

theorem parseblock_succ : parseblock buf (fuel + 1) s =
    if (peek buf s [LPAREN]).1 = false then .error (.panic "parseblock")
    else (parseline buf fuel (gettoken buf (peek buf s [LPAREN]).2).s).bind fun r =>
      if (peek buf r.2 [RPAREN]).1 = false then .error (.panic "syntax - missing )")
      else (parseredirs buf fuel (gettoken buf (peek buf r.2 [RPAREN]).2).s).bind fun q =>
        .ok (wrap r.1 q.1, q.2) := by
  rw [parseblock]
  simp only [Bool.not_eq_true]
  rfl

namespace AllParse

variable (h : AllParse buf fuel)

include h

theorem line_succ (hnul : 0 ∉ buf) (s : ℕ)
    (hfuel : 4 * (tokensFrom buf s).length + 4 ≤ fuel + 1) :
    Parses Line buf s (parseline buf (fuel + 1) s) := by
  rw [parseline_succ]
  rcases h.pipe s (by omega) with ⟨c, s₁, p, hok₁, hs₁, hpipe⟩ | ⟨msg, herr⟩
  · rw [hok₁]
    dsimp only [Except.bind]
    have hlen₁ : (tokensFrom buf s₁).length ≤ (tokensFrom buf s).length := by simp [hs₁]
    rcases parsebacks_parses hnul c (by omega : (tokensFrom buf s₁).length < fuel) with
      ⟨c', s₂, as, hok₂, hs₂, hamps, rfl⟩ | ⟨msg, herr⟩
    · have hlen₂ : (tokensFrom buf s₂).length ≤ (tokensFrom buf s₁).length := by simp [hs₂]
      rw [hok₂]
      dsimp only [Except.bind]
      cases hpeek : (peek buf s₂ [SEMI]).1 with
      | false =>
        rw [if_neg (by simp)]
        refine .inl ⟨_, _, p ++ as, rfl, ?_, .last hpipe hamps⟩
        rw [hs₁, hs₂, peek_tokens hnul (by decide), List.append_assoc]
      | true =>
        rw [if_pos rfl]
        obtain ⟨htokens, hbyte⟩ := peek_symbol hnul (by decide) hpeek
        generalize gettoken buf (peek buf s₂ [SEMI]).2 = g at htokens hbyte ⊢
        have hlen₃ : (tokensFrom buf s₂).length = (tokensFrom buf g.s).length + 1 := by
          rw [htokens]
          rfl
        rcases h.line g.s (by omega) with ⟨d, s', l, hok, hs', hline⟩ | ⟨msg, herr⟩
        · rw [hok]
          refine .inl ⟨_, s', p ++ (as ++ g.token :: l), rfl, ?_,
            .more hpipe hamps (tok_of_byte.1 hbyte) hline⟩
          rw [hs₁, hs₂, htokens, hs']
          simp
        · rw [herr]
          exact .inr ⟨msg, rfl⟩
    · rw [herr]
      exact .inr ⟨msg, rfl⟩
  · rw [herr]
    exact .inr ⟨msg, rfl⟩

theorem pipe_succ (hnul : 0 ∉ buf) (s : ℕ)
    (hfuel : 4 * (tokensFrom buf s).length + 3 ≤ fuel + 1) :
    Parses Pipe buf s (parsepipe buf (fuel + 1) s) := by
  rw [parsepipe_succ]
  rcases h.exec s (by omega) with ⟨c, s₁, e, hok₁, hs₁, hexec⟩ | ⟨msg, herr⟩
  · rw [hok₁]
    dsimp only [Except.bind]
    have hlen₁ : (tokensFrom buf s₁).length ≤ (tokensFrom buf s).length := by simp [hs₁]
    cases hpeek : (peek buf s₁ [BAR]).1 with
    | false =>
      rw [if_neg (by simp)]
      refine .inl ⟨_, _, e, rfl, ?_, .last hexec⟩
      rw [hs₁, peek_tokens hnul (by decide)]
    | true =>
      rw [if_pos rfl]
      obtain ⟨htokens, hbyte⟩ := peek_symbol hnul (by decide) hpeek
      generalize gettoken buf (peek buf s₁ [BAR]).2 = g at htokens hbyte ⊢
      have hlen₂ : (tokensFrom buf s₁).length = (tokensFrom buf g.s).length + 1 := by
        rw [htokens]
        rfl
      rcases h.pipe g.s (by omega) with ⟨d, s', p, hok, hs', hpipe⟩ | ⟨msg, herr⟩
      · rw [hok]
        refine .inl ⟨_, s', e ++ g.token :: p, rfl, ?_, .more hexec (tok_of_byte.2.1 hbyte) hpipe⟩
        rw [hs₁, htokens, hs']
        simp
      · rw [herr]
        exact .inr ⟨msg, rfl⟩
  · rw [herr]
    exact .inr ⟨msg, rfl⟩

theorem exec_succ (hnul : 0 ∉ buf) (s : ℕ)
    (hfuel : 4 * (tokensFrom buf s).length + 2 ≤ fuel + 1) :
    Parses Exec buf s (parseexec buf (fuel + 1) s) := by
  rw [parseexec_succ]
  have htokens := peek_tokens (s := s) hnul (by decide : [LPAREN] ⊆ symbols)
  cases hpeek : (peek buf s [LPAREN]).1 with
  | true =>
    rw [if_pos rfl]
    have hblock := h.block (peek buf s [LPAREN]).2 (by rw [htokens]; omega)
    rw [Parses, htokens] at hblock
    exact hblock
  | false =>
    rw [if_neg (by simp)]
    rcases parseredirs_parses hnul
      (by rw [htokens]; omega : (tokensFrom buf (peek buf s [LPAREN]).2).length < fuel) with
      ⟨rs, s₁, r, hok₁, hs₁, hredirs⟩ | ⟨msg, herr⟩
    · rw [hok₁]
      dsimp only [Except.bind]
      rw [htokens] at hs₁
      have hlen₁ : (tokensFrom buf s₁).length ≤ (tokensFrom buf s).length := by simp [hs₁]
      have hargs := parseargs_parses hnul (by decide : ([] : List Slice).length < MAXARGS) rs
        (by omega : (tokensFrom buf s₁).length < fuel)
      rcases hargs with ⟨c, s', ts, hok, hs', ws, rs', hwords, hlt, rfl⟩ | ⟨msg, herr⟩
      · exact .inl ⟨_, s', r ++ ts, hok, by rw [hs₁, hs', List.append_assoc],
          .simple hredirs hwords hlt⟩
      · exact .inr ⟨msg, herr⟩
    · rw [herr]
      exact .inr ⟨msg, rfl⟩

theorem block_succ (hnul : 0 ∉ buf) (s : ℕ)
    (hfuel : 4 * (tokensFrom buf s).length + 1 ≤ fuel + 1) :
    Parses Exec buf s (parseblock buf (fuel + 1) s) := by
  rw [parseblock_succ]
  cases hpeek : (peek buf s [LPAREN]).1 with
  | false =>
    rw [if_pos rfl]
    exact .inr ⟨_, rfl⟩
  | true =>
    rw [if_neg (by simp)]
    obtain ⟨htokens, hbyte⟩ := peek_symbol hnul (by decide) hpeek
    generalize gettoken buf (peek buf s [LPAREN]).2 = g at htokens hbyte ⊢
    have hlen : (tokensFrom buf s).length = (tokensFrom buf g.s).length + 1 := by
      rw [htokens]
      rfl
    rcases h.line g.s (by omega) with ⟨c, s₁, l, hok₁, hs₁, hline⟩ | ⟨msg, herr⟩
    · rw [hok₁]
      dsimp only [Except.bind]
      have hlen₁ : (tokensFrom buf s₁).length ≤ (tokensFrom buf g.s).length := by simp [hs₁]
      cases hpeek' : (peek buf s₁ [RPAREN]).1 with
      | false =>
        rw [if_pos rfl]
        exact .inr ⟨_, rfl⟩
      | true =>
        rw [if_neg (by simp)]
        obtain ⟨htokens', hbyte'⟩ := peek_symbol hnul (by decide) hpeek'
        generalize gettoken buf (peek buf s₁ [RPAREN]).2 = g' at htokens' hbyte' ⊢
        have hlen₂ : (tokensFrom buf s₁).length = (tokensFrom buf g'.s).length + 1 := by
          rw [htokens']
          rfl
        rcases parseredirs_parses hnul (by omega : (tokensFrom buf g'.s).length < fuel) with
          ⟨rs, s', r, hok, hs', hredirs⟩ | ⟨msg, herr⟩
        · rw [hok]
          refine .inl ⟨_, s', g.token :: (l ++ g'.token :: r), rfl, ?_,
            .block (tok_of_byte.2.2.1 hbyte) hline (tok_of_byte.2.2.2 hbyte') hredirs⟩
          rw [htokens, hs₁, htokens', hs']
          simp
        · rw [herr]
          exact .inr ⟨msg, rfl⟩
    · rw [herr]
      exact .inr ⟨msg, rfl⟩

end AllParse

theorem allParse (hnul : 0 ∉ buf) (fuel : ℕ) : AllParse buf fuel := by
  induction fuel with
  | zero =>
    exact ⟨fun s h => by omega, fun s h => by omega, fun s h => by omega, fun s h => by omega⟩
  | succ fuel ih =>
    exact ⟨fun s => ih.line_succ hnul s, fun s => ih.pipe_succ hnul s, fun s => ih.exec_succ hnul s,
      fun s => ih.block_succ hnul s⟩

end parser

end Sh

end Xv6
