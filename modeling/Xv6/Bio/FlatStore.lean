import Xv6.Bio.Steps

/-! The buffer cache and the disk together behave as a flat block store, and commits do not
change what it holds. -/
namespace Xv6

variable {P : Type*}

def SameTag (s u : BioState P) (b : BufId) : Prop :=
  (u.cache.buf b).dev = (s.cache.buf b).dev ∧ (u.cache.buf b).sector = (s.cache.buf b).sector

/-- What one step can do to a buffer: one in use keeps its sector, and one becomes dirty only
when an ordinary process stores it. -/
structure Tracks (s u : BioState P) (b : BufId) : Prop where
  tag : (s.cache.buf b).busy = true ∨ (s.cache.buf b).dirty = true → SameTag s u b
  dirty : (u.cache.buf b).dirty = true → (s.cache.buf b).dirty = true ∨
    ∃ w ∈ u.stores, w.origin ≠ .commit ∧ w.sector = (u.cache.buf b).sector
  stores : ∀ w ∈ s.stores, w ∈ u.stores

theorem Tracks.same {s u : BioState P} {b : BufId} (h : u.cache.buf = s.cache.buf)
    (hs : u.stores = s.stores) : Tracks s u b := by
  refine ⟨fun _ => ?_, fun hd => Or.inl ?_, fun w hw => hs ▸ hw⟩
  · rw [SameTag, h]
    exact ⟨rfl, rfl⟩
  · rwa [h] at hd

theorem Tracks.of_setBuf {s u : BioState P} {b' : BufId} (b : BufId) (x : Buf)
    (h : u.cache.buf = Function.update s.cache.buf b x) (hd : x.dev = (s.cache.buf b).dev)
    (hs : x.sector = (s.cache.buf b).sector) (hx : x.dirty = true → (s.cache.buf b).dirty = true)
    (hw : ∀ w ∈ s.stores, w ∈ u.stores) : Tracks s u b' := by
  by_cases hb : b' = b
  · subst hb
    have hbuf : u.cache.buf b' = x := by rw [h, Function.update_self]
    exact ⟨fun _ => ⟨by rw [hbuf, hd], by rw [hbuf, hs]⟩, fun hdirty => Or.inl (hx (hbuf ▸ hdirty)),
      hw⟩
  · have hbuf : u.cache.buf b' = s.cache.buf b' := by rw [h, Function.update_of_ne hb]
    exact ⟨fun _ => ⟨by rw [hbuf], by rw [hbuf]⟩, fun hdirty => Or.inl (hbuf ▸ hdirty), hw⟩

theorem tracks_bwrite (s : BioState P) (b : BufId) (o : Origin) (b' : BufId) :
    Tracks s (s.bwrite b o) b' := by
  rcases bwrite_cases s b o with ⟨msg, hr⟩ | hr
  · rw [hr]
    exact .same rfl rfl
  · rw [hr]
    exact .of_setBuf b { s.cache.buf b with dirty := false, valid := true } rfl rfl rfl nofun
      fun _ => List.mem_cons_of_mem _

theorem tracks_brelse (s : BioState P) (b b' : BufId) : Tracks s (s.brelse b) b' := by
  rcases brelse_cases s b with ⟨msg, hr⟩ | hr
  · rw [hr]
    exact .same rfl rfl
  · rw [hr]
    exact .of_setBuf b { s.cache.buf b with busy := false } rfl rfl rfl id fun _ hw => hw

theorem tracks_modify (s : BioState P) (b : BufId) (data : Block) (b' : BufId) :
    Tracks s (s.modify b data) b' :=
  .of_setBuf b { s.cache.buf b with data := data } rfl rfl rfl id fun _ hw => hw

variable [DecidableEq P] {log : LogArea} {d : Disk}

theorem Tracks.andThen {s t : BioState P} {b : BufId} (h : Tracks s t b) (p : P) (c : BioPc) :
    Tracks s (t.andThen p c) b := by
  unfold BioState.andThen
  split_ifs
  · exact ⟨h.tag, h.dirty, h.stores⟩
  · exact h

theorem tracks_commitStep (s : BioState P) (p : P) (c : CommitAt) (b : BufId) :
    Tracks s (BioState.commitStep log s p c) b := by
  cases c with
  | start =>
    simp only [BioState.commitStep]
    split_ifs <;> exact .same rfl rfl
  | loop ph n =>
    simp only [BioState.commitStep]
    split_ifs
    · exact .same rfl rfl
    · cases ph <;> exact .same rfl rfl
  | copy ph n dst src =>
    have h := tracks_modify s dst (s.cache.buf src).data b
    exact ⟨h.tag, h.dirty, h.stores⟩
  | write ph n dst src => exact (tracks_bwrite s dst .commit b).andThen p _
  | relSrc ph n dst src => exact (tracks_brelse s src b).andThen p _
  | relDst ph n dst => exact (tracks_brelse s dst b).andThen p _
  | clear => exact .same rfl rfl
  | putHead erase b' =>
    have h := tracks_modify s b' (putHead (s.cache.buf b').data s.lh) b
    exact ⟨h.tag, h.dirty, h.stores⟩
  | writeHead erase b' => exact (tracks_bwrite s b' .commit b).andThen p _
  | relHead erase b' => exact (tracks_brelse s b' b).andThen p _
  | done => exact .same rfl rfl

theorem tracks_logAppend (s : BioState P) (p : P) (b b' : BufId) :
    Tracks s (s.logAppend p b) b' := by
  refine ⟨fun _ => ?_, fun hd => ?_, fun _ => List.mem_cons_of_mem _⟩
  · by_cases hb : b' = b
    · subst hb
      simp [SameTag, BioState.logAppend, Bcache.pin, Bcache.setBuf_same]
    · simp [SameTag, BioState.logAppend, Bcache.pin, Bcache.setBuf_of_ne hb]
  · by_cases hb : b' = b
    · subst hb
      refine Or.inr ⟨_, List.mem_cons_self, ?_, ?_⟩
      · dsimp only
        split_ifs <;> rintro ⟨⟩
      · simp [BioState.logAppend, BioState.setPc, Bcache.pin, Bcache.setBuf_same]
    · refine Or.inl ?_
      simpa [BioState.logAppend, Bcache.pin, Bcache.setBuf_of_ne hb] using hd

theorem tracks_get {s : BioState P} (h : BioInv d s) (p : P) (k : Caller) (dev sector : ℕ)
    (b : BufId) : Tracks s (s.get p k dev sector) b := by
  unfold BioState.get
  split
  · next c b' hg =>
    rcases Bcache.bget_got h.listed hg with ⟨-, -, -, rfl⟩ | ⟨-, hbusy, hdirty, rfl⟩
    · exact .of_setBuf b' { s.cache.buf b' with busy := true } rfl rfl rfl id fun _ hw => hw
    · by_cases hb : b = b'
      · -- the buffer is reused: it was neither busy nor dirty, and is clean
        subst hb
        refine ⟨fun hused => ?_, fun hd => ?_, fun _ hw => hw⟩
        · rw [hbusy, hdirty] at hused
          simp at hused
        · dsimp only at hd
          rw [Bcache.setBuf_same] at hd
          cases hd
      · refine ⟨fun _ => ?_, fun hd => Or.inl ?_, fun _ hw => hw⟩
        · unfold SameTag
          dsimp only
          rw [Bcache.setBuf_of_ne hb]
          exact ⟨rfl, rfl⟩
        · dsimp only at hd
          rwa [Bcache.setBuf_of_ne hb] at hd
  · exact .same rfl rfl
  · exact .same rfl rfl

theorem tracks_fill {s : BioState P} (h : BioInv d s) (p : P) (k : Caller) (b b' : BufId) :
    Tracks s (s.fill p k b) b' := by
  unfold BioState.fill BioState.onCache
  split
  · next c hc =>
    rcases Bcache.fill_ok (h.buf b).dirty hc with ⟨-, rfl⟩ | ⟨-, -, -, rfl⟩
    · exact .same rfl rfl
    · exact .of_setBuf b { s.cache.buf b with data := _, valid := true } rfl rfl rfl id
        fun _ hw => hw
  · exact .same rfl rfl

omit [DecidableEq P] in
theorem sysInv_init (log : LogArea) (d : Disk) (disksize : ℕ) :
    SysInv log d (BioState.init d disksize : BioState P) := by
  have horder : Links.mru ((List.finRange NBUF).reverse) = (List.finRange NBUF).reverse :=
    Links.mru_of_nodup (List.nodup_reverse.mpr (List.nodup_finRange NBUF))
  refine ⟨⟨?_, ?_, ?_, ?_, ?_⟩, ?_, ?_⟩
  · have hlisted := Bcache.listed_binit d disksize
    rwa [← horder] at hlisted
  · intro b b' hne
    exact absurd rfl hne
  · intro p dev sector b hp
    simp [BioState.init, BioPc.fills] at hp
  · intro b
    constructor <;> simp [BioState.init, Bcache.binit]
  · exact fun x => Or.inl rfl
  · intro p
    exact ProcOk.user _ p
  · intro _
    refine ⟨by simp [BioState.init], fun x _ _ => rfl, ?_⟩
    intro p i hi
    simp [BioState.init, BioPc.view, View.Logged] at hi

/-- What one step keeps, and what it does to the buffers. -/
theorem sysInv_step {s t : BioState P} {a : BioAct P} (h : SysInv log d s)
    (hs : bioStep log s a = some t) :
    SysInv log d t ∧ ∀ b, Tracks s t b := by
  unfold bioStep at hs
  split_ifs at hs with hn
  have hn' : s.panic = none := by simpa using hn
  cases a with
  | bread p dev sector =>
    simp only [Option.ite_none_right_eq_some, Option.some.injEq] at hs
    obtain ⟨hp, rfl⟩ := hs
    exact ⟨h.bread hp dev sector, fun _ => Tracks.same rfl rfl⟩
  | get p =>
    dsimp only at hs
    split at hs
    · next k dev sector hp =>
      rw [Option.some.injEq] at hs
      subst hs
      exact ⟨h.get hp, tracks_get h.bio p k dev sector⟩
    · simp at hs
  | wake p =>
    dsimp only at hs
    split at hs
    · next k dev sector b hp =>
      rw [Option.some.injEq] at hs
      subst hs
      exact ⟨h.wake hp, fun _ => Tracks.same rfl rfl⟩
    · simp at hs
  | fill p =>
    dsimp only at hs
    split at hs
    · next k dev sector b hp =>
      rw [Option.some.injEq] at hs
      subst hs
      exact ⟨h.fill hp, tracks_fill h.bio p k b⟩
    · simp at hs
  | modify p b data =>
    simp only [Option.ite_none_right_eq_some, Option.some.injEq] at hs
    obtain ⟨⟨hp, ho⟩, rfl⟩ := hs
    exact ⟨h.modifyUser hp ho data, tracks_modify s b data⟩
  | logCheck p b =>
    simp only [Option.ite_none_right_eq_some, Option.some.injEq] at hs
    obtain ⟨⟨hp, ho⟩, rfl⟩ := hs
    refine ⟨h.logCheck hp ho, fun b' => ?_⟩
    unfold BioState.logCheck
    split_ifs <;> exact .same rfl rfl
  | logAppend p =>
    dsimp only at hs
    split at hs
    · next b hp =>
      rw [Option.some.injEq] at hs
      subst hs
      exact ⟨h.logAppend hp, tracks_logAppend s p b⟩
    · simp at hs
  | bwrite p b =>
    simp only [Option.ite_none_right_eq_some, Option.some.injEq] at hs
    obtain ⟨⟨hp, ho⟩, rfl⟩ := hs
    exact ⟨h.bwriteUser hn' hp ho, tracks_bwrite s b _⟩
  | brelse p b =>
    simp only [Option.ite_none_right_eq_some, Option.some.injEq] at hs
    obtain ⟨⟨hp, ho, hu⟩, rfl⟩ := hs
    exact ⟨h.brelseUser hn' hp ho hu, tracks_brelse s b⟩
  | beginOp p =>
    simp only [Option.ite_none_right_eq_some, Option.some.injEq] at hs
    obtain ⟨-, rfl⟩ := hs
    exact ⟨h.ops (p :: s.ops), fun _ => Tracks.same rfl rfl⟩
  | endOp p =>
    simp only [Option.ite_none_right_eq_some, Option.some.injEq] at hs
    obtain ⟨⟨hp, -⟩, rfl⟩ := hs
    refine ⟨h.endOp hp, fun b => ?_⟩
    unfold BioState.endOp
    dsimp only
    split_ifs <;> exact .same rfl rfl
  | commit p =>
    dsimp only at hs
    split at hs
    · next c hp =>
      rw [Option.some.injEq] at hs
      subst hs
      exact ⟨h.commit hn' hp, tracks_commitStep s p c⟩
    · simp at hs

theorem sysInv_reaches {disksize : ℕ} {s : BioState P}
    (h : Run.Reaches (bioStep log) (BioState.init d disksize) s) : SysInv log d s :=
  h.invariant (fun _ _ _ hs ht => (sysInv_step hs ht).1) (sysInv_init log d disksize)

theorem fill_returns {s t : BioState P} (h : SysInv log d s) {p : P} {k : Caller}
    {dev sector : ℕ} {b : BufId} (hp : s.pc p = .filling k dev sector b)
    (ht : bioStep log s (.fill p) = some t) (hn : t.panic = none) :
    t.owner b = some p ∧ (t.cache.buf b).dev = dev ∧ (t.cache.buf b).sector = sector ∧
      dev = ROOTDEV ∧ (t.cache.buf b).data = flat d t.stores sector := by
  obtain ⟨hown, hdev, hsec, hsaved⟩ := h.bio.filling p dev sector b (by rw [hp]; rfl)
  have hinv := (sysInv_step h ht).1
  have htag := (tracks_fill h.bio p k b b).tag (Or.inl ((h.bio.buf b).busy.mpr (by simp [hown])))
  unfold bioStep at ht
  split_ifs at ht
  simp only [hp, Option.some.injEq] at ht
  subst ht
  have hbuf := hinv.bio.buf b
  have hfields : (s.fill p k b).owner = s.owner ∧ (s.fill p k b).unsaved = s.unsaved ∧
      ((s.fill p k b).cache.buf b).valid = true := by
    unfold BioState.fill BioState.onCache at hn ⊢
    split
    · next c hc =>
      exact ⟨rfl, rfl, (Bcache.fill_spec (h.bio.buf b).dirty hc).1⟩
    · next msg hc => simp [hc, BioState.raise] at hn
  have hsec' := htag.2.trans hsec
  refine ⟨by rw [hfields.1, hown], htag.1.trans hdev, hsec', ?_, ?_⟩
  · rw [← hdev, ← htag.1]
    exact hbuf.valid hfields.2.2
  · rw [← hsec']
    exact hbuf.data hfields.2.2 (by rw [hfields.2.1, hsaved])

/-- In every reachable state of any number of processes: a sector has one buffer at most;
`bread` returns what was stored last, by anyone; busy and dirty buffers keep their sector,
and a stored block that is not yet on the disk sits in a dirty buffer; the list holds
every buffer once, most recently released first. Commits are transparent: below the log, and
apart from sectors an ordinary process stored to while a commit had them in its header, what was
stored last is what an ordinary process stored last. -/
theorem bcache_flat_store {disksize : ℕ} {s : BioState P}
    (h : Run.Reaches (bioStep log) (BioState.init d disksize) s) :
    (∀ b b', (s.cache.buf b).dev ≠ NODEV → (s.cache.buf b').dev = (s.cache.buf b).dev →
        (s.cache.buf b').sector = (s.cache.buf b).sector → b' = b) ∧
      (∀ p k dev sector b t, s.pc p = .filling k dev sector b →
        bioStep log s (.fill p) = some t → t.panic = none →
          t.owner b = some p ∧ (t.cache.buf b).dev = dev ∧ (t.cache.buf b).sector = sector ∧
            dev = ROOTDEV ∧ (t.cache.buf b).data = flat d t.stores sector) ∧
      (∀ a t b, bioStep log s a = some t →
        ((s.cache.buf b).busy = true ∨ (s.cache.buf b).dirty = true) → SameTag s t b) ∧
      (∀ x, s.cache.disk x = flat d s.stores x ∨ ∃ b, (s.cache.buf b).dev = ROOTDEV ∧
        (s.cache.buf b).sector = x ∧ (s.cache.buf b).dirty = true ∧
          (s.unsaved b = false → (s.cache.buf b).data = flat d s.stores x)) ∧
      (s.cache.Listed s.order ∧ s.order.Nodup) ∧
      (Untampered log s → ∀ x < log.start, ¬Raced s x →
        flat d s.stores x = flat d (directStores s.stores) x) := by
  have hinv := sysInv_reaches h
  refine ⟨hinv.bio.unique, ?_, ?_, ?_, ⟨hinv.bio.listed, Links.nodup_mru _⟩, ?_⟩
  · intro p k dev sector b t hp ht hn
    exact fill_returns hinv hp ht hn
  · intro a t b ht hb
    exact ((sysInv_step hinv ht).2 b).tag hb
  · intro x
    rcases hinv.bio.disk x with hx | ⟨b, hdev, hsec, hd⟩
    · exact Or.inl hx
    · have hv := (hinv.bio.buf b).dirty hd
      exact Or.inr ⟨b, hdev, hsec, hd, fun hu => hsec ▸ (hinv.bio.buf b).data hv hu⟩
  · exact fun ht => (hinv.log ht).same

/-- One operation that logs sector 29, for which the other process waits, and commits. -/
def logOneRun : List (BioAct Bool) :=
  let read (p : Bool) : List (BioAct Bool) := [.get p, .fill p]
  let copy := .commit true :: read true ++ read true ++ List.replicate 4 (.commit true)
  let head := .commit true :: read true ++ List.replicate 3 (.commit true)
  let b : BufId := ⟨0, by decide⟩
  [.beginOp true, .bread true ROOTDEV 29] ++ read true ++
    [.bread false ROOTDEV 29, .get false, .modify true b (Bytes.zero.setWord 0 7),
      .logCheck true b, .logAppend true, .brelse true b] ++ read false ++
    [.brelse false b, .endOp true, .commit true] ++ copy ++ head ++ copy ++ [.commit true] ++
    head ++ [.commit true]

/-- The process that waited for the buffer finds what the other one stored. -/
theorem bcache_flat_store_two : ∃ (s t : BioState Bool) (b : BufId),
    (Run.exec (bioStep (initlog mkfsSb)) (BioState.init (fun _ => Bytes.zero) 1024)
      (logOneRun.take 6)).map (fun s => s.pc false) = some (.asleep .user ROOTDEV 29 b) ∧
    Run.exec (bioStep (initlog mkfsSb)) (BioState.init (fun _ => Bytes.zero) 1024)
      (logOneRun.take 11) = some s ∧
    bioStep (initlog mkfsSb) s (.fill false) = some t ∧ t.owner b = some false ∧
    (t.cache.buf b).data = flat (fun _ => Bytes.zero) t.stores 29 ∧
    (flat (fun _ => Bytes.zero) t.stores 29).word 0 = 7 := by
  have hasleep : (Run.exec (bioStep (initlog mkfsSb)) (BioState.init (fun _ => Bytes.zero) 1024)
      (logOneRun.take 6)).map (fun s => s.pc false) =
        some (.asleep .user ROOTDEV 29 ⟨0, by decide⟩) := by decide +kernel
  have hrun : (Run.exec (bioStep (initlog mkfsSb)) (BioState.init (fun _ => Bytes.zero) 1024)
      (logOneRun.take 11)).bind (fun s => (bioStep (initlog mkfsSb) s (.fill false)).map fun t =>
        (s.pc false, t.panic, (flat (fun _ => Bytes.zero) t.stores 29).word 0)) =
      some (.filling .user ROOTDEV 29 ⟨0, by decide⟩, none, 7) := by
    decide +kernel
  obtain ⟨s, hs, he⟩ := Option.bind_eq_some_iff.mp hrun
  obtain ⟨t, ht, he⟩ := Option.map_eq_some_iff.mp he
  simp only [Prod.mk.injEq] at he
  obtain ⟨howner, -, -, -, hdata⟩ :=
    (bcache_flat_store ⟨_, hs⟩).2.1 false .user ROOTDEV 29 _ t he.1 ht he.2.1
  exact ⟨s, t, _, hasleep, hs, ht, howner, hdata, he.2.2⟩

end Xv6
