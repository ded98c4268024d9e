import Xv6.Bio.CommitView

/-! Every step of every process keeps the invariants of the buffer cache. -/
namespace Xv6

section

variable {P : Type*} [DecidableEq P] {log : LogArea} {d : Disk} {s : BioState P} {p : P}

theorem view_setPc_of_ne {c : BioPc} {q : P} (hq : q ≠ p) :
    ((s.setPc p c).pc q).view = (s.pc q).view := by
  simp [BioState.setPc, Function.update_of_ne hq]

theorem SysInv.setPc (h : SysInv log d s) {c : BioPc} (hf : c.fills = (s.pc p).fills)
    (hp : ProcOk log s p c.view)
    (hl : ∀ i, c.view.Logged i → i < s.lh.length → (s.pc p).view.Logged i) :
    SysInv log d (s.setPc p c) := by
  refine h.step p (h.bio.setPc hf) (fun q hq => view_setPc_of_ne hq)
    (fun _ _ => Keeps.refl_of rfl rfl rfl) (fun _ _ => id)
    (fun _ _ _ => ⟨[], by simp [BioState.setPc]⟩)
    ?_ ?_
  · have hpc : (s.setPc p c).pc p = c := by simp [BioState.setPc]
    rw [hpc]
    exact hp.same rfl rfl rfl rfl rfl
  · intro ht
    refine (h.log ht).quiet rfl rfl ?_
    intro q i hq hi
    by_cases hqp : q = p
    · subst hqp
      have hpc : (s.setPc q c).pc q = c := by simp [BioState.setPc]
      rw [hpc] at hq
      exact hl i hq hi
    · rwa [view_setPc_of_ne hqp] at hq

theorem SysInv.bread (h : SysInv log d s) (hp : s.pc p = .user) (dev sector : ℕ) :
    SysInv log d (s.setPc p (.getting .user dev sector)) := by
  refine h.setPc (by rw [hp]; rfl) (ProcOk.outside ?_ ?_) ?_
  · exact fun hc => hc
  · exact fun b hb => by simp [BioPc.view] at hb
  · exact fun i hi => hi.elim

theorem SysInv.wake (h : SysInv log d s) {k : Caller} {dev sector : ℕ} {b : BufId}
    (hp : s.pc p = .asleep k dev sector b) :
    SysInv log d (s.setPc p (.getting k dev sector)) := by
  have hproc := h.proc p
  rw [hp] at hproc
  exact h.setPc (by rw [hp]; rfl) hproc fun i hi _ => by rw [hp]; exact hi

theorem View.logged_call {k : Caller} {sector i : ℕ} {got got' : Option BufId}
    (h : (View.call k sector got).Logged i) : (View.call k sector got').Logged i := by
  cases k with
  | first ph tail => cases ph <;> exact h
  | second ph tail b => cases ph <;> exact h
  | head erase => cases erase <;> exact h
  | user => exact h

theorem View.inCommit_call {k : Caller} {sector : ℕ} {got got' : Option BufId}
    (h : (View.call k sector got).InCommit) : (View.call k sector got').InCommit := by
  cases k <;> exact h

theorem View.held_call {k : Caller} {sector : ℕ} {got got' : Option BufId} {lh : List ℕ} :
    (View.call k sector got).held log lh = (View.call k sector got').held log lh := by
  cases k <;> rfl

omit [DecidableEq P] in
/-- A process that has been given the buffer it asked for. -/
theorem ProcOk.given {k : Caller} {sector : ℕ} {b : BufId}
    (h : ProcOk log s p (.call k sector none)) (hb : s.owner b ≠ some p) :
    ProcOk log s p (.call k sector (some b)) := by
  constructor
  · exact fun hc => h.committing (View.inCommit_call hc)
  · intro x hx
    have hold := h.held x (by rwa [View.held_call])
    cases k <;> exact hold
  · rw [View.held_call]
    exact h.apart
  · intro k' sector' b' he x hx hxb
    rw [View.call.injEq, Option.some.injEq] at he
    have hold := h.held x (by rwa [View.held_call])
    rw [hxb, ← he.2.2] at hold
    exact hb hold.1
  · exact fun ph n dst src he => by simp at he
  · intro n hn
    exact h.tail n (by cases k <;> exact hn)
  · intro k' sector' got he x hx
    rw [View.call.injEq] at he
    exact h.asks k sector' none (by rw [he.2.1]) x (by cases k <;> exact hx)
  · exact fun b' he => by simp at he

theorem SysInv.get (h : SysInv log d s) {k : Caller} {dev sector : ℕ}
    (hp : s.pc p = .getting k dev sector) : SysInv log d (s.get p k dev sector) := by
  have hproc := h.proc p
  rw [hp] at hproc
  have hf : (s.pc p).fills = none := by rw [hp]; rfl
  unfold BioState.get
  split
  · next c b hg =>
    have hkeep : ∀ q, Keeps s { s.setPc p (.filling k dev sector b) with
        cache := c, owner := Function.update s.owner b (some p) } q := by
      intro q b' hb'
      have hne : b' ≠ b := by
        rintro rfl
        have hbusy := (h.bio.buf b').busy.mpr (by simp [hb'])
        rcases Bcache.bget_got h.bio.listed hg with hc | hc
        · simp [hc.2.2.1] at hbusy
        · simp [hc.2.1] at hbusy
      refine ⟨?_, (Function.update_of_ne hne _ _).trans hb', rfl⟩
      rcases Bcache.bget_got h.bio.listed hg with hc | hc
      · rw [hc.2.2.2, Bcache.setBuf_of_ne hne]
      · rw [hc.2.2.2, Bcache.setBuf_of_ne hne]
    have hfree : s.owner b ≠ some p := by
      intro ho
      have hbusy := (h.bio.buf b).busy.mpr (by simp [ho])
      rcases Bcache.bget_got h.bio.listed hg with hc | hc
      · simp [hc.2.2.1] at hbusy
      · simp [hc.2.1] at hbusy
    refine h.step p (h.bio.got hf hg) (fun q hq => view_setPc_of_ne hq) (fun q _ => hkeep q)
      (fun _ _ => id) (fun _ _ _ => ⟨[], by simp [BioState.setPc]⟩) ?_ ?_
    · have hpc : (s.setPc p (.filling k dev sector b)).pc p = .filling k dev sector b := by
        simp [BioState.setPc]
      simp only [hpc]
      exact (hproc.given hfree).frame (hkeep p) id fun _ => ⟨[], by simp [BioState.setPc]⟩
    · intro ht
      refine (h.log ht).quiet rfl rfl ?_
      intro q i hq _
      by_cases hqp : q = p
      · subst hqp
        simp only [BioState.setPc, Function.update_self] at hq
        rw [hp]
        exact View.logged_call hq
      · rwa [← view_setPc_of_ne hqp]
  · next b _ =>
    refine h.setPc (by rw [hp]; rfl) hproc ?_
    intro i hi _
    rw [hp]
    exact hi
  · exact h.raise _

theorem Bcache.fill_spec {c c' : Bcache} {b : BufId}
    (hd : (c.buf b).dirty = true → (c.buf b).valid = true) (h : c.fill b = .ok c') :
    (c'.buf b).valid = true ∧ (c'.buf b).sector = (c.buf b).sector ∧
      ∀ b' ≠ b, c'.buf b' = c.buf b' := by
  rcases Bcache.fill_ok hd h with ⟨hv, rfl⟩ | ⟨-, -, -, rfl⟩
  · exact ⟨hv, rfl, fun _ _ => rfl⟩
  · rw [Bcache.setBuf_same]
    exact ⟨rfl, rfl, fun b' hb' => Bcache.setBuf_of_ne hb' _ _⟩

omit [DecidableEq P] in
theorem ProcOk.resume {k : Caller} {sector : ℕ} {b : BufId} {c : Bcache}
    (h : ProcOk log s p (.call k sector (some b))) (hown : s.owner b = some p)
    (hsec : (s.cache.buf b).sector = sector) (hsaved : s.unsaved b = false)
    (hv : (c.buf b).valid = true) (htag : (c.buf b).sector = (s.cache.buf b).sector)
    (hother : ∀ b' ≠ b, c.buf b' = s.cache.buf b') :
    ProcOk log { s with cache := c } p (BioState.resume { s with cache := c } k b).view := by
  have hb : ∀ x, (View.call k sector (some b)).asks log s.lh = some x →
      s.owner b = some p ∧ (c.buf b).valid = true ∧ (c.buf b).sector = x ∧
        s.unsaved b = false := by
    intro x hx
    exact ⟨hown, hv, by rw [htag, hsec]; exact h.asks k sector (some b) rfl x hx, hsaved⟩
  cases k with
  | user =>
    exact ProcOk.outside (fun hc => hc) fun b' hb' => by simp [BioState.resume, BioPc.view] at hb'
  | first ph n =>
    have hbn := hb _ rfl
    constructor
    · exact fun _ => h.committing trivial
    · simp [BioState.resume, BioPc.view, View.held, hbn]
    · simp [BioState.resume, BioPc.view, View.held]
    · simp [BioState.resume, BioPc.view]
    · simp [BioState.resume, BioPc.view]
    · exact h.tail
    · simp [BioState.resume, BioPc.view, View.asks]
    · simp [BioState.resume, BioPc.view]
  | second ph n b₁ =>
    have hbn := hb _ rfl
    have hb₁ := h.held (b₁, log.start + n + 1) (by simp [View.held])
    have hne := h.fresh _ sector b rfl (b₁, log.start + n + 1) (by simp [View.held])
    have hs₁ : s.unsaved b₁ = false := by simpa [View.changed] using hb₁.2.2.2
    have hc₁ := hother b₁ hne
    cases ph <;> constructor
    case log.held | install.held =>
      simp only [BioState.resume, BioPc.view, View.held, Phase.target, Phase.source]
      simp [hbn, hb₁, hs₁, hc₁]
    case log.apart =>
      simpa [BioState.resume, BioPc.view, View.held] using hne
    case install.apart =>
      simpa [BioState.resume, BioPc.view, View.held] using hne.symm
    case log.committing | install.committing => exact fun _ => h.committing trivial
    case log.tail | install.tail => exact h.tail
    all_goals simp [BioState.resume, BioPc.view]
  | head erase =>
    have hbn := hb _ rfl
    refine ProcOk.inside (h.committing trivial) ?_ ?_ (by simp [View.tail]) (by simp)
    · simp [View.held, hbn]
    · simp [View.held]

omit [DecidableEq P] in
theorem View.logged_resume {k : Caller} {sector i : ℕ} {b : BufId}
    (h : (s.resume k b).view.Logged i) : (View.call k sector (some b)).Logged i := by
  cases k with
  | user => exact h
  | first ph n => cases ph <;> exact h
  | second ph n b₁ => cases ph <;> exact h
  | head erase => cases erase <;> exact h

theorem SysInv.fill (h : SysInv log d s) {k : Caller} {dev sector : ℕ} {b : BufId}
    (hp : s.pc p = .filling k dev sector b) : SysInv log d (s.fill p k b) := by
  have hproc := h.proc p
  rw [hp] at hproc
  have hbio := h.bio.fill hp
  obtain ⟨hown, -, hsec, hsaved⟩ := h.bio.filling p dev sector b (by rw [hp]; rfl)
  unfold BioState.fill BioState.onCache at hbio ⊢
  split
  · next c hc =>
    simp only [hc] at hbio
    obtain ⟨hv, htag, hother⟩ := Bcache.fill_spec (h.bio.buf b).dirty hc
    refine h.step p hbio (fun q hq => ?_) ?_ (fun _ _ => id)
      (fun _ _ _ => ⟨[], by simp [BioState.setPc]⟩) ?_ ?_
    · simp [BioState.setPc, Function.update_of_ne hq]
    · intro q hq b' hb'
      have hne : b' ≠ b := by
        rintro rfl
        rw [hown, Option.some.injEq] at hb'
        exact hq hb'.symm
      exact ⟨hother b' hne, hb', rfl⟩
    · have hres := hproc.resume hown hsec hsaved hv htag hother
      simp only [BioState.setPc, Function.update_self]
      exact hres.same rfl rfl rfl rfl rfl
    · intro ht
      refine (h.log ht).quiet rfl rfl ?_
      intro q i hq _
      by_cases hqp : q = p
      · subst hqp
        simp only [BioState.setPc, Function.update_self] at hq
        rw [hp]
        exact View.logged_resume hq
      · simpa only [BioState.setPc, Function.update_of_ne hqp] using hq
  · exact h.raise _

theorem BioState.setPc_self {c : BioPc} (h : s.pc p = c) : s.setPc p c = s := by
  rw [← h, BioState.setPc, Function.update_eq_self]

omit [DecidableEq P] in
theorem ne_of_owner {b : BufId} {q : P} (hown : s.owner b = some p) (hq : q ≠ p) :
    s.owner b ≠ some q := by
  rw [hown]
  exact fun he => hq (Option.some.inj he).symm

theorem SysInv.modify (h : SysInv log d s) {b : BufId} {c : BioPc} (hown : s.owner b = some p)
    (hf : (s.pc p).fills = none) (hc : c.fills = none) (data : Block)
    (hp : ProcOk log (s.modify b data) p c.view)
    (hl : ∀ i, c.view.Logged i → (s.pc p).view.Logged i) :
    SysInv log d ((s.modify b data).setPc p c) := by
  refine h.step p ((h.bio.modify hown hf data).setPc (hc.trans hf.symm))
    (fun q hq => view_setPc_of_ne hq) (fun q hq => keeps_modify (ne_of_owner hown hq) data)
    (fun _ _ => id) (fun _ _ _ => ⟨[], by simp [BioState.setPc, BioState.modify]⟩) ?_ ?_
  · simp only [BioState.setPc, Function.update_self]
    exact hp.same rfl rfl rfl rfl rfl
  · intro ht
    refine (h.log ht).quiet rfl rfl ?_
    intro q i hq _
    by_cases hqp : q = p
    · subst hqp
      simp only [BioState.setPc, Function.update_self] at hq
      exact hl i hq
    · rwa [view_setPc_of_ne hqp] at hq

omit [DecidableEq P] in
/-- `bwrite` panics, or records a store of the buffer. -/
theorem bwrite_cases (s : BioState P) (b : BufId) (o : Origin) :
    (∃ msg, s.bwrite b o = s.raise msg) ∨
      s.bwrite b o = { s with
        cache := { s.cache.setBuf b { s.cache.buf b with dirty := false, valid := true } with
          disk := Function.update s.cache.disk (s.cache.buf b).sector (s.cache.buf b).data }
        unsaved := Function.update s.unsaved b false
        stores := ⟨(s.cache.buf b).sector, (s.cache.buf b).data, o⟩ :: s.stores } := by
  unfold BioState.bwrite BioState.onCache
  split
  · next c hc =>
    obtain ⟨-, rfl⟩ := Bcache.bwrite_ok hc
    exact Or.inr (by simp [BioState.record, Bcache.setBuf_same])
  · next msg _ => exact Or.inl ⟨msg, rfl⟩

omit [DecidableEq P] in
/-- `brelse` panics, or gives the buffer up and moves it to the front of the list. -/
theorem brelse_cases (s : BioState P) (b : BufId) :
    (∃ msg, s.brelse b = s.raise msg) ∨
      s.brelse b = { s with
        cache := { s.cache.setBuf b { s.cache.buf b with busy := false } with
          links := (s.cache.links.unlink (some b)).pushFront none (some b) }
        owner := Function.update s.owner b none
        released := b :: s.released
        pc := fun q => (s.pc q).wakeup b } := by
  unfold BioState.brelse BioState.onCache
  split
  · next c hc =>
    rw [Bcache.brelse_ok hc]
    exact Or.inr rfl
  · next msg _ => exact Or.inl ⟨msg, rfl⟩

theorem SysInv.bwrite (h : SysInv log d s) (hn : s.panic = none) {b : BufId} {c : BioPc}
    {o : Origin} (hown : s.owner b = some p) (hf : (s.pc p).fills = none) (hc : c.fills = none)
    (hp : (s.bwrite b o).stores ≠ s.stores → ProcOk log (s.bwrite b o) p c.view)
    (hlog : LogOk log d s → Untampered log ((s.bwrite b o).setPc p c) →
      ((s.bwrite b o).setPc p c).stores =
        ⟨(s.cache.buf b).sector, (s.cache.buf b).data, o⟩ :: s.stores →
      LogOk log d ((s.bwrite b o).setPc p c)) :
    SysInv log d ((s.bwrite b o).andThen p c) := by
  have hbio := (h.bio.bwrite hown hf o).setPc (p := p) (c := c)
  rcases bwrite_cases s b o with ⟨msg, hr⟩ | hr
  · rw [hr]
    exact h.raise msg
  · have hand : (s.bwrite b o).andThen p c = (s.bwrite b o).setPc p c := by
      rw [BioState.andThen, if_pos]
      rw [hr]
      exact hn
    have hpc : (s.bwrite b o).pc = s.pc := by rw [hr]
    rw [hand]
    refine h.step p (hbio (by rw [hpc, hc, hf])) ?_ ?_ ?_ ?_ ?_ ?_
    · intro q hq
      rw [view_setPc_of_ne hq, hpc]
    · exact fun q hq => keeps_bwrite (ne_of_owner hown hq) o
    · intro q _ hs
      rw [hr]
      exact hs
    · intro q _ _
      rw [hr]
      exact ⟨[], by simp [BioState.setPc]⟩
    · have hne : (s.bwrite b o).stores ≠ s.stores := by
        rw [hr]
        simp
      simp only [BioState.setPc, Function.update_self]
      exact (hp hne).same rfl rfl rfl rfl rfl
    · intro ht
      have hst : ((s.bwrite b o).setPc p c).stores =
          ⟨(s.cache.buf b).sector, (s.cache.buf b).data, o⟩ :: s.stores := by
        rw [hr]
        rfl
      refine hlog (h.log ?_) ht hst
      intro w hw
      exact ht w (by rw [hst]; exact List.mem_cons_of_mem _ hw)

theorem SysInv.brelse (h : SysInv log d s) (hn : s.panic = none) {b : BufId} {c : BioPc}
    (hown : s.owner b = some p) (hf : (s.pc p).fills = none) (hsaved : s.unsaved b = false)
    (hc : c.fills = none)
    (hp : (s.brelse b).released ≠ s.released → ProcOk log (s.brelse b) p c.view)
    (hl : ∀ i, c.view.Logged i → (s.pc p).view.Logged i) :
    SysInv log d ((s.brelse b).andThen p c) := by
  have hbio := (h.bio.brelse hown hf hsaved).setPc (p := p) (c := c)
  rcases brelse_cases s b with ⟨msg, hr⟩ | hr
  · rw [hr]
    exact h.raise msg
  · have hand : (s.brelse b).andThen p c = (s.brelse b).setPc p c := by
      rw [BioState.andThen, if_pos]
      rw [hr]
      exact hn
    have hpc : ∀ q, ((s.brelse b).pc q) = (s.pc q).wakeup b := by
      intro q
      rw [hr]
    rw [hand]
    refine h.step p (hbio (by rw [hpc, hc, BioPc.fills_wakeup, hf])) ?_ ?_ ?_ ?_ ?_ ?_
    · intro q hq
      rw [view_setPc_of_ne hq, hpc, BioPc.view_wakeup]
    · exact fun q hq => keeps_brelse (ne_of_owner hown hq)
    · intro q _ hs
      rw [hr]
      exact hs
    · intro q _ _
      rw [hr]
      exact ⟨[], by simp [BioState.setPc]⟩
    · have hne : (s.brelse b).released ≠ s.released := by
        rw [hr]
        simp
      simp only [BioState.setPc, Function.update_self]
      exact (hp hne).same rfl rfl rfl rfl rfl
    · intro ht
      have hst : ((s.brelse b).setPc p c).stores = s.stores := by rw [hr]; rfl
      have hlh : ((s.brelse b).setPc p c).lh = s.lh := by rw [hr]; rfl
      have ht' : Untampered log s := by
        rw [Untampered, ← hst]
        exact ht
      refine (h.log ht').quiet hst hlh ?_
      intro q i hq _
      by_cases hqp : q = p
      · subst hqp
        simp only [BioState.setPc, Function.update_self] at hq
        exact hl i hq
      · rwa [view_setPc_of_ne hqp, hpc, BioPc.view_wakeup] at hq

theorem BioState.andThen_self {t : BioState P} {c : BioPc} (h : t.pc p = c) :
    t.andThen p c = t := by
  rw [BioState.andThen, BioState.setPc_self h, ite_self]

omit [DecidableEq P] in
theorem ProcOk.user (s : BioState P) (p : P) : ProcOk log s p BioPc.user.view :=
  ProcOk.outside (fun hc => hc) fun b hb => by simp [BioPc.view] at hb

theorem SysInv.modifyUser (h : SysInv log d s) {b : BufId} (hp : s.pc p = .user)
    (hown : s.owner b = some p) (data : Block) : SysInv log d (s.modify b data) := by
  have hm := h.modify hown (by rw [hp]; rfl) (c := .user) rfl data (ProcOk.user _ p)
    fun i hi => hi.elim
  rwa [BioState.setPc_self (by exact hp)] at hm

theorem SysInv.bwriteUser (h : SysInv log d s) (hn : s.panic = none) {b : BufId}
    (hp : s.pc p = .user) (hown : s.owner b = some p) :
    SysInv log d (s.bwrite b (s.originOf b)) := by
  have hpc : (s.bwrite b (s.originOf b)).pc = s.pc := by
    rcases bwrite_cases s b (s.originOf b) with ⟨msg, hr⟩ | hr
    · rw [hr]
      rfl
    · rw [hr]
  have hlh : (s.bwrite b (s.originOf b)).lh = s.lh := by
    rcases bwrite_cases s b (s.originOf b) with ⟨msg, hr⟩ | hr
    · rw [hr]
      rfl
    · rw [hr]
  have hself := BioState.andThen_self (t := s.bwrite b (s.originOf b)) (p := p) (c := .user)
    (by rw [hpc, hp])
  rw [← hself]
  refine h.bwrite hn hown (by rw [hp]; rfl) rfl (fun _ => ProcOk.user _ p) ?_
  have hpc' : ((s.bwrite b (s.originOf b)).setPc p .user).pc = s.pc := by
    rw [BioState.setPc_self (by rw [hpc, hp]), hpc]
  intro hlog ht hst
  have horigin : s.originOf b ≠ .commit := by
    unfold BioState.originOf
    split_ifs <;> simp
  refine hlog.direct (t := []) hst horigin ?_ ?_ (by simp) ?_ ?_
  · exact ht _ (by rw [hst]; exact List.mem_cons_self) horigin
  · rw [List.append_nil]
    exact hlh
  · intro q hq hmem
    rw [hpc'] at hq
    have hcom := (h.proc q).committing hq
    have hmem' : (s.cache.buf b).sector ∈ s.lh := hlh ▸ hmem
    simp [BioState.originOf, hcom, hmem']
  · intro q i hq
    rwa [hpc'] at hq

theorem SysInv.brelseUser (h : SysInv log d s) (hn : s.panic = none) {b : BufId}
    (hp : s.pc p = .user) (hown : s.owner b = some p) (hsaved : s.unsaved b = false) :
    SysInv log d (s.brelse b) := by
  have hpc : (s.brelse b).pc p = .user := by
    rcases brelse_cases s b with ⟨msg, hr⟩ | hr
    · rw [hr]
      exact hp
    · rw [hr]
      simp only [hp]
      rfl
  rw [← BioState.andThen_self hpc]
  exact h.brelse hn hown (by rw [hp]; rfl) hsaved rfl (fun _ => ProcOk.user _ p)
    fun i hi => hi.elim

theorem SysInv.logCheck (h : SysInv log d s) {b : BufId} (hp : s.pc p = .user)
    (hown : s.owner b = some p) : SysInv log d (BioState.logCheck log s p b) := by
  unfold BioState.logCheck
  split_ifs
  · exact h.raise _
  · exact h.raise _
  · refine h.setPc (by rw [hp]; rfl) ?_ fun i hi => hi.elim
    constructor <;> simp [BioPc.view, View.InCommit, View.held, View.tail]
    exact hown

theorem absorb_append (lh : List ℕ) (x : ℕ) :
    ∃ t, GroupState.absorb lh x = lh ++ t ∧ ∀ y ∈ t, y = x := by
  rw [absorb_eq]
  split_ifs
  · exact ⟨[], by simp⟩
  · exact ⟨[x], by simp⟩

theorem SysInv.logAppend (h : SysInv log d s) {b : BufId} (hp : s.pc p = .logging b) :
    SysInv log d (s.logAppend p b) := by
  have hown := (h.proc p).logging b (by rw [hp]; rfl)
  have hf : (s.pc p).fills = none := by rw [hp]; rfl
  obtain ⟨t, ht, hmem⟩ := absorb_append s.lh (s.cache.buf b).sector
  refine h.step p (h.bio.logAppend hown hf) (fun q hq => view_setPc_of_ne hq) ?_ (fun _ _ => id)
    (fun _ _ _ => ⟨t, ht⟩) ?_ ?_
  · intro q hq b' hb'
    have hne : b' ≠ b := by
      rintro rfl
      exact ne_of_owner hown hq hb'
    exact ⟨Bcache.setBuf_of_ne hne _ _, hb', Function.update_of_ne hne _ _⟩
  · have hpc : (s.logAppend p b).pc p = .user := by
      simp [BioState.logAppend, BioState.record, BioState.setPc]
    rw [hpc]
    exact ProcOk.user _ p
  · intro hut
    have hst : (s.logAppend p b).stores = ⟨(s.cache.buf b).sector, (s.cache.buf b).data,
        if s.committing = none then Origin.process else .racing⟩ :: s.stores := rfl
    have horigin : (if s.committing = none then Origin.process else .racing) ≠ .commit := by
      split_ifs <;> simp
    have hview : ∀ q, (((s.logAppend p b).pc q).view = (s.pc q).view ∨ q = p) := by
      intro q
      by_cases hq : q = p
      · exact Or.inr hq
      · exact Or.inl (view_setPc_of_ne hq)
    have huser : ((s.logAppend p b).pc p).view = .user := by
      simp [BioState.logAppend, BioState.record, BioState.setPc, BioPc.view]
    have hlog : LogOk log d s :=
      h.log fun w hw => hut w (by rw [hst]; exact List.mem_cons_of_mem _ hw)
    refine hlog.direct hst horigin (hut _ (by rw [hst]; exact List.mem_cons_self) horigin) ht hmem
      ?_ ?_
    · intro q hq _
      rcases hview q with hv | rfl
      · rw [hv] at hq
        simp [(h.proc q).committing hq]
      · rw [huser] at hq
        exact hq.elim
    · intro q i hq
      rcases hview q with hv | rfl
      · rwa [hv] at hq
      · rw [huser] at hq
        exact hq.elim

omit [DecidableEq P] in
theorem SysInv.ops (h : SysInv log d s) (l : List P) : SysInv log d { s with ops := l } where
  bio := h.bio.congr rfl rfl rfl rfl rfl fun _ => rfl
  proc q := (h.proc q).same rfl rfl rfl rfl rfl
  log ht := (h.log ht).quiet rfl rfl fun _ _ hq _ => hq

theorem SysInv.endOp (h : SysInv log d s) (hp : s.pc p = .user) : SysInv log d (s.endOp p) := by
  have hops := h.ops (s.ops.erase p)
  unfold BioState.endOp
  dsimp only
  split_ifs with hc he
  · exact hops.raise _
  · have hnone : s.committing = none := by simpa using hc
    refine hops.step p ?_ (fun q hq => view_setPc_of_ne hq) (fun _ _ => Keeps.refl_of rfl rfl rfl)
      ?_ ?_ ?_ ?_
    · exact hops.bio.congr rfl rfl rfl rfl rfl (BioInv.fills_setPc (by rw [hp]; rfl))
    · intro q _ hs
      simp [hnone] at hs
    · intro q _ hs
      simp [hnone] at hs
    · simp only [BioState.setPc, Function.update_self, BioPc.view]
      constructor <;> simp [View.held, View.tail]
    · intro ht
      refine (hops.log ht).quiet rfl rfl ?_
      intro q i hq _
      by_cases hqp : q = p
      · subst hqp
        simp only [BioState.setPc, Function.update_self] at hq
        exact hq.elim
      · simpa [BioState.setPc, Function.update_of_ne hqp] using hq
  · exact hops

omit [DecidableEq P] in
/-- The parts of the invariant at a statement of `commit` that holds nothing. -/
theorem ProcOk.idle {c : CommitAt} (h : s.committing = some p)
    (hheld : (View.commit c).held log s.lh = [])
    (htail : (View.commit c).tail = none) : ProcOk log s p (.commit c) := by
  refine ProcOk.inside h ?_ ?_ ?_ ?_
  · simp [hheld]
  · simp [hheld]
  · simp [htail]
  · rintro ph n dst src rfl
    simp [View.tail] at htail

omit [DecidableEq P] in
theorem ProcOk.callFirst {ph : Phase} {n : ℕ} (h : s.committing = some p) (hn : n < s.lh.length) :
    ProcOk log s p (.call (.first ph n) (log.start + n + 1) none) := by
  constructor <;> simp [View.held, View.tail, View.asks, h, hn]

omit [DecidableEq P] in
theorem ProcOk.callHead {erase : Bool} (h : s.committing = some p) :
    ProcOk log s p (.call (.head erase) log.start none) := by
  constructor <;> simp [View.held, View.tail, View.asks, h]

theorem SysInv.commitStart (h : SysInv log d s) (hp : s.pc p = .commit .start) :
    SysInv log d (BioState.commitStep log s p .start) := by
  have hcom : s.committing = some p := (h.proc p).committing (by rw [hp]; trivial)
  have hf : (s.pc p).fills = none := by rw [hp]; rfl
  simp only [BioState.commitStep]
  split_ifs
  · refine h.setPc hf.symm (ProcOk.idle hcom rfl rfl) ?_
    intro i hi
    simp [BioPc.view, View.Logged] at hi
  · exact h.setPc hf.symm (ProcOk.idle hcom rfl rfl) fun i hi => hi.elim

theorem SysInv.commitLoop (h : SysInv log d s) {ph : Phase} {n : ℕ}
    (hp : s.pc p = .commit (.loop ph n)) :
    SysInv log d (BioState.commitStep log s p (.loop ph n)) := by
  have hcom : s.committing = some p := (h.proc p).committing (by rw [hp]; trivial)
  have hf : (s.pc p).fills = none := by rw [hp]; rfl
  simp only [BioState.commitStep]
  split_ifs with hn
  · refine h.setPc hf.symm (ProcOk.callFirst hcom hn) ?_
    intro i hi _
    rw [hp]
    cases ph <;> exact hi
  · cases ph with
    | log =>
      refine h.setPc hf.symm (ProcOk.callHead hcom) ?_
      intro i _ hi
      rw [hp]
      show i < n
      omega
    | install =>
      refine h.setPc hf.symm (ProcOk.idle hcom rfl rfl) ?_
      intro i _ _
      rw [hp]
      trivial

theorem SysInv.commitCopy (h : SysInv log d s) {ph : Phase} {n : ℕ} {dst src : BufId}
    (hp : s.pc p = .commit (.copy ph n dst src)) :
    SysInv log d (BioState.commitStep log s p (.copy ph n dst src)) := by
  have hproc := h.proc p
  rw [hp] at hproc
  have hd := hproc.held (dst, ph.target log s.lh n) (by simp [BioPc.view, View.held])
  have hs := hproc.held (src, ph.source log s.lh n) (by simp [BioPc.view, View.held])
  have hne : dst ≠ src := by simpa [BioPc.view, View.held] using hproc.apart
  have hs' : s.unsaved src = false := by simpa [BioPc.view, View.changed] using hs.2.2.2
  refine h.modify hd.1 (by rw [hp]; rfl) rfl _ ?_ ?_
  · refine ProcOk.inside (hproc.committing trivial) ?_ hproc.apart hproc.tail ?_
    · simp only [View.held, List.mem_cons, List.not_mem_nil, or_false, forall_eq_or_imp,
        forall_eq, BioState.modify, Bcache.setData, Bcache.setBuf_same,
        Bcache.setBuf_of_ne hne.symm, View.changed, Function.update_of_ne hne.symm]
      exact ⟨⟨hd.1, hd.2.1, hd.2.2.1, fun _ => trivial⟩, hs.1, hs.2.1, hs.2.2.1, by simp [hs']⟩
    · rintro ph' n' dst' src' ⟨⟩
      simp only [BioState.modify, Bcache.setData, Bcache.setBuf_same, Bcache.setBuf_of_ne hne.symm]
  · intro i hi
    rw [hp]
    cases ph <;> exact hi

omit [DecidableEq P] in
/-- Only the process that runs the commit is inside `commit`. -/
theorem SysInv.committer (h : SysInv log d s) (hcom : s.committing = some p) {q : P} {i : ℕ}
    (hq : (s.pc q).view.Logged i) : q = p := by
  have hc := (h.proc q).committing hq.inCommit
  rw [hcom, Option.some.injEq] at hc
  exact hc.symm

theorem SysInv.commitWrite (h : SysInv log d s) (hn : s.panic = none) {ph : Phase} {n : ℕ}
    {dst src : BufId} (hp : s.pc p = .commit (.write ph n dst src)) :
    SysInv log d (BioState.commitStep log s p (.write ph n dst src)) := by
  have hproc := h.proc p
  rw [hp] at hproc
  have hcom := hproc.committing trivial
  have hd := hproc.held (dst, ph.target log s.lh n) (by simp [BioPc.view, View.held])
  have hs := hproc.held (src, ph.source log s.lh n) (by simp [BioPc.view, View.held])
  have hne : dst ≠ src := by simpa [BioPc.view, View.held] using hproc.apart
  have hs' : s.unsaved src = false := by
    simpa [BioPc.view, View.changed, hne] using hs.2.2.2
  have htail : n < s.lh.length := hproc.tail n rfl
  have hdata : (s.cache.buf dst).data = flat d s.stores (ph.source log s.lh n) := by
    rw [hproc.copied ph n dst src rfl, (h.bio.buf src).data hs.2.1 hs', hs.2.2.1]
  have hsec : (s.cache.buf dst).sector = ph.target log s.lh n := hd.2.2.1
  have hfields : (s.bwrite dst .commit).pc = s.pc ∧ (s.bwrite dst .commit).lh = s.lh := by
    rcases bwrite_cases s dst .commit with ⟨msg, hr⟩ | hr <;> rw [hr] <;> exact ⟨rfl, rfl⟩
  refine h.bwrite hn hd.1 (by rw [hp]; rfl) rfl ?_ ?_
  · intro hst
    rcases bwrite_cases s dst .commit with ⟨msg, hr⟩ | hr
    · rw [hr] at hst
      exact absurd rfl hst
    · rw [hr]
      refine ProcOk.inside hcom ?_ hproc.apart hproc.tail (by simp)
      simp only [View.held, List.mem_cons, List.not_mem_nil, or_false,
        forall_eq_or_imp, forall_eq, Bcache.setBuf_same, Bcache.setBuf_of_ne hne.symm,
        Function.update_self, Function.update_of_ne hne.symm]
      exact ⟨⟨hd.1, trivial, hd.2.2.1, by simp⟩, hs.1, hs.2.1, hs.2.2.1, by simp [hs']⟩
  · intro hlog _ hst
    have hbelow : s.lh.getD n 0 < log.start := by
      apply hlog.below
      rw [List.getD_eq_getElem _ _ htail]
      exact List.getElem_mem htail
    refine hlog.commit hst rfl hfields.2 ?_ ?_
    · intro hlt hr
      dsimp only at hlt hr ⊢
      rw [hsec] at hlt hr ⊢
      rw [hdata]
      cases ph with
      | log =>
        simp only [Phase.target] at hlt
        omega
      | install =>
        have hl := hlog.logged p n (by rw [hp]; trivial) htail
        exact hl.resolve_left hr
    · intro q i hq hi
      by_cases hqp : q = p
      · subst hqp
        simp only [BioState.setPc, Function.update_self] at hq
        dsimp only
        rw [hsec, hdata, hp]
        cases ph with
        | log =>
          have hi' : i < n + 1 := hq
          by_cases hin : i = n
          · exact Or.inr ⟨by rw [hin]; rfl, by rw [hin]; rfl⟩
          · refine Or.inl ⟨?_, ?_⟩
            · show i < n
              omega
            · simp only [Phase.target]
              omega
        | install =>
          refine Or.inl ⟨trivial, ?_⟩
          simp only [Phase.target]
          omega
      · rw [view_setPc_of_ne hqp, hfields.1] at hq
        exact absurd (h.committer hcom hq) hqp

theorem SysInv.commitRelSrc (h : SysInv log d s) (hn : s.panic = none) {ph : Phase} {n : ℕ}
    {dst src : BufId} (hp : s.pc p = .commit (.relSrc ph n dst src)) :
    SysInv log d (BioState.commitStep log s p (.relSrc ph n dst src)) := by
  have hproc := h.proc p
  rw [hp] at hproc
  have hd := hproc.held (dst, ph.target log s.lh n) (by simp [BioPc.view, View.held])
  have hs := hproc.held (src, ph.source log s.lh n) (by simp [BioPc.view, View.held])
  have hne : dst ≠ src := by simpa [BioPc.view, View.held] using hproc.apart
  have hs' : s.unsaved src = false := by simpa [BioPc.view, View.changed] using hs.2.2.2
  refine h.brelse hn hs.1 (by rw [hp]; rfl) hs' rfl ?_ ?_
  · intro hst
    rcases brelse_cases s src with ⟨msg, hr⟩ | hr
    · rw [hr] at hst
      exact absurd rfl hst
    · rw [hr]
      refine ProcOk.inside (hproc.committing trivial) ?_ (by simp [View.held]) hproc.tail (by simp)
      simp only [View.held, List.mem_cons, List.not_mem_nil, or_false, forall_eq,
        Bcache.setBuf_of_ne hne, Function.update_of_ne hne]
      exact hd
  · intro i hi
    rw [hp]
    cases ph <;> exact hi

theorem SysInv.commitRelDst (h : SysInv log d s) (hn : s.panic = none) {ph : Phase} {n : ℕ}
    {dst : BufId} (hp : s.pc p = .commit (.relDst ph n dst)) :
    SysInv log d (BioState.commitStep log s p (.relDst ph n dst)) := by
  have hproc := h.proc p
  rw [hp] at hproc
  have hd := hproc.held (dst, ph.target log s.lh n) (by simp [BioPc.view, View.held])
  have hd' : s.unsaved dst = false := by simpa [BioPc.view, View.changed] using hd.2.2.2
  refine h.brelse hn hd.1 (by rw [hp]; rfl) hd' rfl ?_ ?_
  · intro hst
    rcases brelse_cases s dst with ⟨msg, hr⟩ | hr
    · rw [hr] at hst
      exact absurd rfl hst
    · rw [hr]
      exact ProcOk.idle (hproc.committing trivial) rfl rfl
  · intro i hi
    rw [hp]
    cases ph <;> exact hi

theorem SysInv.commitClear (h : SysInv log d s) (hp : s.pc p = .commit .clear) :
    SysInv log d (BioState.commitStep log s p .clear) := by
  have hcom : s.committing = some p := (h.proc p).committing (by rw [hp]; trivial)
  have hf : (s.pc p).fills = none := by rw [hp]; rfl
  refine h.step p (h.bio.congr rfl rfl rfl rfl rfl (BioInv.fills_setPc hf.symm))
    (fun q hq => view_setPc_of_ne hq) (fun _ _ => Keeps.refl_of rfl rfl rfl)
    (fun _ _ => id) ?_ ?_ ?_
  · intro q hq hs
    rw [hcom, Option.some.injEq] at hs
    exact absurd hs.symm hq
  · simp only [BioState.commitStep, BioState.setPc, Function.update_self]
    exact ProcOk.callHead hcom
  · intro ht
    exact ⟨by simp [BioState.commitStep], (h.log ht).same, fun q i _ hi => by
      simp [BioState.commitStep] at hi⟩

theorem SysInv.commitPutHead (h : SysInv log d s) {erase : Bool} {b : BufId}
    (hp : s.pc p = .commit (.putHead erase b)) :
    SysInv log d (BioState.commitStep log s p (.putHead erase b)) := by
  have hproc := h.proc p
  rw [hp] at hproc
  have hb := hproc.held (b, log.start) (by simp [BioPc.view, View.held])
  refine h.modify hb.1 (by rw [hp]; rfl) rfl _ ?_ ?_
  · refine ProcOk.inside (hproc.committing trivial) ?_ (by simp [View.held]) (by simp [View.tail])
      (by simp)
    simp only [View.held, List.mem_cons, List.not_mem_nil, or_false, forall_eq,
      BioState.modify, Bcache.setData, Bcache.setBuf_same, View.changed]
    exact ⟨hb.1, hb.2.1, hb.2.2.1, fun _ => trivial⟩
  · intro i hi
    rw [hp]
    cases erase <;> exact hi

theorem SysInv.commitWriteHead (h : SysInv log d s) (hn : s.panic = none) {erase : Bool}
    {b : BufId} (hp : s.pc p = .commit (.writeHead erase b)) :
    SysInv log d (BioState.commitStep log s p (.writeHead erase b)) := by
  have hproc := h.proc p
  rw [hp] at hproc
  have hcom := hproc.committing trivial
  have hb := hproc.held (b, log.start) (by simp [BioPc.view, View.held])
  have hsec : (s.cache.buf b).sector = log.start := hb.2.2.1
  have hfields : (s.bwrite b .commit).pc = s.pc ∧ (s.bwrite b .commit).lh = s.lh := by
    rcases bwrite_cases s b .commit with ⟨msg, hr⟩ | hr <;> rw [hr] <;> exact ⟨rfl, rfl⟩
  refine h.bwrite hn hb.1 (by rw [hp]; rfl) rfl ?_ ?_
  · intro hst
    rcases bwrite_cases s b .commit with ⟨msg, hr⟩ | hr
    · rw [hr] at hst
      exact absurd rfl hst
    · rw [hr]
      refine ProcOk.inside hcom ?_ (by simp [View.held]) (by simp [View.tail]) (by simp)
      simp only [View.held, List.mem_cons, List.not_mem_nil, or_false, forall_eq,
        Bcache.setBuf_same, Function.update_self]
      exact ⟨hb.1, trivial, hb.2.2.1, by simp⟩
  · intro hlog _ hst
    refine hlog.commit hst rfl hfields.2 ?_ ?_
    · intro hlt
      dsimp only at hlt
      omega
    · intro q i hq _
      by_cases hqp : q = p
      · subst hqp
        simp only [BioState.setPc, Function.update_self] at hq
        refine Or.inl ⟨?_, ?_⟩
        · rw [hp]
          cases erase <;> exact hq
        · dsimp only
          omega
      · rw [view_setPc_of_ne hqp, hfields.1] at hq
        exact absurd (h.committer hcom hq) hqp

theorem SysInv.commitRelHead (h : SysInv log d s) (hn : s.panic = none) {erase : Bool}
    {b : BufId} (hp : s.pc p = .commit (.relHead erase b)) :
    SysInv log d (BioState.commitStep log s p (.relHead erase b)) := by
  have hproc := h.proc p
  rw [hp] at hproc
  have hb := hproc.held (b, log.start) (by simp [BioPc.view, View.held])
  have hb' : s.unsaved b = false := by simpa [BioPc.view, View.changed] using hb.2.2.2
  refine h.brelse hn hb.1 (by rw [hp]; rfl) hb' rfl ?_ ?_
  · intro hst
    rcases brelse_cases s b with ⟨msg, hr⟩ | hr
    · rw [hr] at hst
      exact absurd rfl hst
    · rw [hr]
      cases erase <;> exact ProcOk.idle (hproc.committing trivial) rfl rfl
  · intro i hi
    rw [hp]
    cases erase <;> exact hi

theorem SysInv.commitDone (h : SysInv log d s) (hp : s.pc p = .commit .done) :
    SysInv log d (BioState.commitStep log s p .done) := by
  have hcom : s.committing = some p := (h.proc p).committing (by rw [hp]; trivial)
  have hf : (s.pc p).fills = none := by rw [hp]; rfl
  refine h.step p (h.bio.congr rfl rfl rfl rfl rfl (BioInv.fills_setPc hf.symm))
    (fun q hq => view_setPc_of_ne hq) (fun _ _ => Keeps.refl_of rfl rfl rfl) ?_ ?_ ?_ ?_
  · intro q hq hs
    rw [hcom, Option.some.injEq] at hs
    exact absurd hs.symm hq
  · exact fun _ _ _ => ⟨[], by simp [BioState.commitStep, BioState.setPc]⟩
  · simp only [BioState.commitStep, BioState.setPc, Function.update_self]
    exact ProcOk.user _ p
  · intro ht
    refine (h.log ht).quiet rfl rfl ?_
    intro q i hq _
    by_cases hqp : q = p
    · subst hqp
      simp only [BioState.commitStep, BioState.setPc, Function.update_self] at hq
      exact hq.elim
    · simpa [BioState.commitStep, BioState.setPc, Function.update_of_ne hqp] using hq

theorem SysInv.commit (h : SysInv log d s) (hn : s.panic = none) {c : CommitAt}
    (hp : s.pc p = .commit c) : SysInv log d (BioState.commitStep log s p c) := by
  cases c with
  | start => exact h.commitStart hp
  | loop ph n => exact h.commitLoop hp
  | copy ph n dst src => exact h.commitCopy hp
  | write ph n dst src => exact h.commitWrite hn hp
  | relSrc ph n dst src => exact h.commitRelSrc hn hp
  | relDst ph n dst => exact h.commitRelDst hn hp
  | clear => exact h.commitClear hp
  | putHead erase b => exact h.commitPutHead hp
  | writeHead erase b => exact h.commitWriteHead hn hp
  | relHead erase b => exact h.commitRelHead hn hp
  | done => exact h.commitDone hp

end

end Xv6
