import Xv6.Sh.Accept

/-! The strings of the tree are terminated in place, each exactly where its slice ends. -/
namespace Xv6

namespace Sh

def Cmd.slices : Cmd → List Slice
  | .exec argv => argv.filterMap id
  | .redir cmd r => cmd.slices ++ [r.file]
  | .pipe left right => left.slices ++ right.slices
  | .list left right => left.slices ++ right.slices
  | .back cmd => cmd.slices

def Cmd.argvs : Cmd → List (List (Option Slice))
  | .exec argv => [argv]
  | .redir cmd _ => cmd.argvs
  | .pipe left right => left.argvs ++ right.argvs
  | .list left right => left.argvs ++ right.argvs
  | .back cmd => cmd.argvs

def cstring (mem : List UInt8) (q : ℕ) : List UInt8 := (mem.drop q).takeWhile (· ≠ 0)

def Slice.source (buf : List UInt8) (w : Slice) : List UInt8 := (buf.drop w.q).take (w.eq - w.q)

/-- The arguments stand before the null entries, of which there is at least one. -/
def Terminated (argv : List (Option Slice)) : Prop := ∃ ws, ws.length < MAXARGS ∧ argv = argvOf ws

/-- The strings of the tree are words of the command, and its argument arrays are terminated. -/
structure FromWords (ts : List Token) (c : Cmd) : Prop where
  slices : ∀ w ∈ c.slices, ⟨.word, w⟩ ∈ ts
  argvs : ∀ argv ∈ c.argvs, Terminated argv

section tree

variable {ts ts' : List Token} {c d : Cmd}

theorem FromWords.mono (h : FromWords ts c) (hsub : ts ⊆ ts') : FromWords ts' c :=
  ⟨fun w hw => hsub (h.slices w hw), h.argvs⟩

theorem FromWords.pair (hc : FromWords ts c) (hd : FromWords ts d) :
    FromWords ts (.pipe c d) ∧ FromWords ts (.list c d) := by
  have hslices : ∀ w ∈ c.slices ++ d.slices, ⟨.word, w⟩ ∈ ts := fun w hw =>
    (List.mem_append.mp hw).elim (hc.slices w) (hd.slices w)
  have hargvs : ∀ argv ∈ c.argvs ++ d.argvs, Terminated argv := fun argv hargv =>
    (List.mem_append.mp hargv).elim (hc.argvs argv) (hd.argvs argv)
  exact ⟨⟨hslices, hargvs⟩, ⟨hslices, hargvs⟩⟩

theorem FromWords.backs (h : FromWords ts c) (n : ℕ) : FromWords ts (Cmd.back^[n] c) := by
  induction n with
  | zero => exact h
  | succ n ih =>
    rw [Function.iterate_succ_apply']
    exact ⟨ih.slices, ih.argvs⟩

theorem FromWords.wrap {rs : List Redir} (h : FromWords ts c)
    (hrs : ∀ r ∈ rs, ⟨.word, r.file⟩ ∈ ts) : FromWords ts (wrap c rs) := by
  induction rs generalizing c with
  | nil => exact h
  | cons r rs ih =>
    refine ih ⟨fun w hw => ?_, h.argvs⟩ fun r' hr' => hrs r' (List.mem_cons_of_mem r hr')
    rcases List.mem_append.mp hw with hw | hw
    · exact h.slices w hw
    · rw [List.mem_singleton.mp hw]
      exact hrs r List.mem_cons_self

theorem redirOf_file {tok : Tok} {file : Slice} {r : Redir} (h : redirOf tok file = some r) :
    r.file = file := by
  cases tok <;> cases h <;> rfl

theorem Redirs.words {rs : List Redir} (h : Redirs ts rs) :
    ∀ r ∈ rs, ⟨.word, r.file⟩ ∈ ts := by
  induction h with
  | nil => simp
  | @cons t f r ts rs hr hf _ ih =>
    have hword : (⟨.word, r.file⟩ : Token) = f := by rw [redirOf_file hr, ← hf]
    intro r' hmem
    rcases List.mem_cons.mp hmem with rfl | hmem
    · simp [hword]
    · simp [ih r' hmem]

theorem Words.words {ws : List Slice} {rs : List Redir} (h : Words ts ws rs) :
    (∀ w ∈ ws, ⟨.word, w⟩ ∈ ts) ∧ ∀ r ∈ rs, ⟨.word, r.file⟩ ∈ ts := by
  induction h with
  | nil => simp
  | @cons w r ts ws rs rs' hw hr _ ih =>
    have hword : (⟨.word, w.slice⟩ : Token) = w := by rw [← hw]
    refine ⟨fun w' hmem => ?_, fun r' hmem => ?_⟩
    · rcases List.mem_cons.mp hmem with rfl | hmem
      · simp [hword]
      · simp [ih.1 w' hmem]
    · rcases List.mem_append.mp hmem with hmem | hmem
      · simp [hr.words r' hmem]
      · simp [ih.2 r' hmem]

theorem argvOf_filterMap (ws : List Slice) : (argvOf ws).filterMap id = ws := by
  simp [argvOf]

theorem Words.fromWords {r ts : List Token} {ws : List Slice} {rs rs' : List Redir}
    (hr : Redirs r rs) (hw : Words ts ws rs') (hargs : ws.length < MAXARGS) :
    FromWords (r ++ ts) (Sh.wrap (.exec (argvOf ws)) (rs ++ rs')) := by
  refine FromWords.wrap ⟨fun w hmem => ?_, fun argv hmem => ?_⟩ fun r' hmem => ?_
  · rw [Cmd.slices, argvOf_filterMap] at hmem
    exact List.mem_append_right r (hw.words.1 w hmem)
  · exact ⟨ws, hargs, List.mem_singleton.mp hmem⟩
  · rcases List.mem_append.mp hmem with hmem | hmem
    · exact List.mem_append_left ts (hr.words _ hmem)
    · exact List.mem_append_right r (hw.words.2 _ hmem)

theorem Line.fromWords : Line ts c → FromWords ts c := by
  refine @Line.rec (fun ts c _ => FromWords ts c) (fun ts c _ => FromWords ts c)
    (fun ts c _ => FromWords ts c) ?_ ?_ ?_ ?_ ?_ ?_ ts c
  · intro p as c _ _ hp
    exact (hp.mono (by simp)).backs _
  · intro p as l c d t _ _ _ _ hp hl
    exact (FromWords.pair ((hp.mono (by simp)).backs _) (hl.mono fun t ht => by simp [ht])).2
  · intro e c _ he
    exact he
  · intro e p c d t _ _ _ he hp
    exact (FromWords.pair (he.mono (by simp)) (hp.mono fun t ht => by simp [ht])).1
  · intro l r c rs t t' _ _ _ hr hl
    exact (hl.mono fun t ht => by simp [ht]).wrap fun r' hmem => by simp [hr.words r' hmem]
  · intro r ts ws rs rs' hr hw hargs
    exact Words.fromWords hr hw hargs

end tree

section memory

variable {buf mem : List UInt8}

theorem wordAt_of_mem (hnul : 0 ∉ buf) {w : Slice} (n s : ℕ) (hn : (tokensFrom buf s).length = n)
    (hw : ⟨.word, w⟩ ∈ tokensFrom buf s) : WordAt buf w := by
  induction n generalizing s with
  | zero => simp [List.eq_nil_of_length_eq_zero hn] at hw
  | succ n ih =>
    rcases gettoken_spec hnul s with ⟨hnil, -⟩ | ⟨hcons, -, hword⟩
    · simp [hnil] at hw
    · rw [hcons] at hw hn
      rcases List.mem_cons.mp hw with heq | hmem
      · obtain ⟨htok, rfl⟩ := Token.mk.inj heq
        exact hword htok.symm
      · exact ih _ (Nat.succ.inj hn) hmem

/-- No string of the command ends inside another. -/
theorem WordAt.stop_not_inside {v w : Slice} (hv : WordAt buf v) (hw : WordAt buf w) {i : ℕ}
    (hlo : w.q ≤ i) (hhi : i < w.eq) : v.eq ≠ i := by
  rintro rfl
  exact hv.after (Nat.lt_of_lt_of_le hhi hw.stop) (hw.inside _ hlo hhi)

theorem foldl_set_zero (ws : List Slice) (mem : List UInt8) (i : ℕ) (hi : i < mem.length) :
    (ws.foldl (fun mem a => mem.set a.eq 0) mem)[i]? =
      if i ∈ ws.map Slice.eq then some 0 else mem[i]? := by
  induction ws generalizing mem with
  | nil => simp
  | cons w ws ih =>
    rw [List.foldl_cons, ih _ (by simpa using hi), List.map_cons]
    by_cases hmem : i ∈ ws.map Slice.eq
    · rw [if_pos hmem, if_pos (List.mem_cons_of_mem _ hmem)]
    · by_cases heq : i = w.eq
      · subst heq
        simp [hmem, hi]
      · rw [if_neg hmem, if_neg (by simp [hmem, heq]), List.getElem?_set_ne (Ne.symm heq)]

theorem argvOf_takeWhile (ws : List Slice) :
    ((argvOf ws).takeWhile Option.isSome).filterMap id = ws := by
  rw [argvOf, List.takeWhile_append_of_pos (by simp), List.filterMap_append]
  cases MAXARGS - ws.length with
  | zero => simp
  | succ n => simp [List.replicate_succ]

/-- `nulterminate` writes a 0 at the end of each string of the tree. -/
theorem nulterminate_eq {c : Cmd} (h : ∀ argv ∈ c.argvs, Terminated argv) (mem : List UInt8) :
    nulterminate c mem = c.slices.foldl (fun mem a => mem.set a.eq 0) mem := by
  induction c generalizing mem with
  | exec argv =>
    obtain ⟨ws, -, rfl⟩ := h argv (List.mem_singleton_self argv)
    rw [nulterminate, argvOf_takeWhile, Cmd.slices, argvOf_filterMap]
  | redir cmd r ih =>
    rw [nulterminate, ih h, Cmd.slices, List.foldl_append]
    rfl
  | pipe left right ihl ihr =>
    rw [nulterminate, ihl fun argv hargv => h argv (List.mem_append_left _ hargv),
      ihr fun argv hargv => h argv (List.mem_append_right _ hargv), Cmd.slices, List.foldl_append]
  | list left right ihl ihr =>
    rw [nulterminate, ihl fun argv hargv => h argv (List.mem_append_left _ hargv),
      ihr fun argv hargv => h argv (List.mem_append_right _ hargv), Cmd.slices, List.foldl_append]
  | back cmd ih => exact ih h mem

theorem cstring_word (hnul : 0 ∉ buf) {w : Slice} (hw : WordAt buf w)
    (hkeep : ∀ i, w.q ≤ i → i < w.eq → mem[i]? = buf[i]?) (hstop : mem[w.eq]? = some 0) :
    cstring mem w.q = w.source buf := by
  have hle := hw.stop
  have hstart := hw.start
  have hsplit : mem.drop w.q = w.source buf ++ 0 :: mem.drop (w.eq + 1) := by
    refine List.ext_getElem? fun i => ?_
    have hlen : (w.source buf).length = w.eq - w.q := by
      rw [Slice.source, List.length_take, List.length_drop]
      omega
    rw [List.getElem?_drop]
    rcases Nat.lt_trichotomy i (w.eq - w.q) with hi | rfl | hi
    · rw [List.getElem?_append_left (by omega), Slice.source, List.getElem?_take_of_lt hi,
        List.getElem?_drop, hkeep _ (by omega) (by omega)]
    · rw [List.getElem?_append_right (by omega), hlen, Nat.sub_self,
        Nat.add_sub_cancel' (by omega), hstop]
      rfl
    · obtain ⟨j, rfl⟩ := Nat.exists_eq_add_of_lt hi
      rw [List.getElem?_append_right (by omega), hlen, Nat.add_assoc, Nat.add_sub_cancel_left,
        List.getElem?_cons_succ, List.getElem?_drop]
      congr 1
      omega
  have hne : ∀ c ∈ w.source buf, decide (c ≠ 0) = true := by
    intro c hc
    have hmem : c ∈ buf := List.mem_of_mem_drop (List.mem_of_mem_take hc)
    rw [decide_eq_true_iff]
    rintro rfl
    exact hnul hmem
  rw [cstring, hsplit, List.takeWhile_append_of_pos hne, List.takeWhile_cons_of_neg (by simp),
    List.append_nil]

end memory

/-- Every string of the tree, read in the buffer that `nulterminate` leaves, is its source
slice; no byte of a slice has changed, and every argument array is terminated. -/
theorem nulterminate_exact (buf : List UInt8) (hnul : 0 ∉ buf) (fuel : ℕ)
    (hfuel : 4 * (lex 0 buf).length + 4 ≤ fuel) (c : Cmd) (mem : List UInt8)
    (hok : parsecmd fuel buf = .ok (c, mem)) :
    (∀ w ∈ c.slices, w.q < w.eq ∧ w.eq ≤ buf.length ∧ cstring mem w.q = w.source buf ∧
        mem[w.eq]? = some 0 ∧ ∀ i, w.q ≤ i → i < w.eq → mem[i]? = buf[i]?) ∧
      ∀ argv ∈ c.argvs, Terminated argv := by
  obtain ⟨hline, rfl⟩ := parsecmd_ok hnul hfuel hok
  obtain ⟨hslices, hargvs⟩ := hline.fromWords
  have hword : ∀ w ∈ c.slices, WordAt buf w := fun w hw => wordAt_of_mem hnul _ 0 rfl (hslices w hw)
  refine ⟨fun w hw => ?_, hargvs⟩
  rw [nulterminate_eq hargvs]
  have hle := (hword w hw).stop
  have hkeep : ∀ i, w.q ≤ i → i < w.eq →
      (c.slices.foldl (fun mem a => mem.set a.eq 0) (buf ++ [0]))[i]? = buf[i]? := by
    intro i hlo hhi
    have hnot : i ∉ c.slices.map Slice.eq := by
      rw [List.mem_map]
      rintro ⟨v, hv, heq⟩
      exact (hword v hv).stop_not_inside (hword w hw) hlo hhi heq
    rw [foldl_set_zero _ _ _ (by rw [List.length_append, List.length_singleton]; omega),
      if_neg hnot, List.getElem?_append_left (by omega)]
  have hstop : (c.slices.foldl (fun mem a => mem.set a.eq 0) (buf ++ [0]))[w.eq]? = some 0 := by
    rw [foldl_set_zero _ _ _ (by rw [List.length_append, List.length_singleton]; omega),
      if_pos (List.mem_map_of_mem hw)]
  exact ⟨(hword w hw).start, hle, cstring_word hnul (hword w hw) hkeep hstop, hstop, hkeep⟩

theorem nulterminate_exact_pipeline :
    pipelineTree.slices = [⟨0, 1⟩, ⟨2, 3⟩, ⟨4, 5⟩] ∧
      (∀ w ∈ pipelineTree.slices,
        cstring [0x61, 0, 0x62, 0, 0x63, 0, 0] w.q = w.source pipeline) ∧
      ∀ argv ∈ pipelineTree.argvs, Terminated argv := by
  have h := nulterminate_exact pipeline (by decide) 32 (by decide +kernel) pipelineTree
    [0x61, 0, 0x62, 0, 0x63, 0, 0] (by decide +kernel)
  exact ⟨by decide, fun w hw => (h.1 w hw).2.2.1, h.2⟩

end Sh

end Xv6
