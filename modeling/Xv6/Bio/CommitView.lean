import Xv6.Bio.Invariant
import Xv6.Log.GroupInvariant
import Mathlib.Data.List.GetD

/-! Where a process stands in `commit`, the buffers it holds there, and what the log and the
sectors below it hold while a commit runs. -/
namespace Xv6

/-- What the invariants need to know of where a process stands. -/
inductive View where
  | user
  | logging (b : BufId)
  | call (k : Caller) (sector : ℕ) (got : Option BufId)
  | commit (c : CommitAt)

def BioPc.view : BioPc → View
  | .user => .user
  | .logging b => .logging b
  | .getting k _ sector => .call k sector none
  | .asleep k _ sector _ => .call k sector none
  | .filling k _ sector b => .call k sector (some b)
  | .commit c => .commit c

@[simp] theorem BioPc.view_wakeup (b : BufId) (c : BioPc) : (c.wakeup b).view = c.view := by
  cases c with
  | asleep k dev sector b' =>
    simp only [wakeup]
    split_ifs <;> rfl
  | _ => rfl

/-- The sector a copying loop writes at position `tail`. -/
def Phase.target (log : LogArea) (lh : List ℕ) (tail : ℕ) : Phase → ℕ
  | .log => log.start + tail + 1
  | .install => lh.getD tail 0

/-- The sector a copying loop reads at position `tail`. -/
def Phase.source (log : LogArea) (lh : List ℕ) (tail : ℕ) : Phase → ℕ
  | .log => lh.getD tail 0
  | .install => log.start + tail + 1

namespace View

def InCommit : View → Prop
  | call .user _ _ => False
  | call _ _ _ => True
  | commit _ => True
  | _ => False

/-- The buffers `commit` holds, with the sectors they are for. -/
def held (log : LogArea) (lh : List ℕ) : View → List (BufId × ℕ)
  | call (.second _ tail b₁) _ _ => [(b₁, log.start + tail + 1)]
  | commit (.copy ph tail dst src) => [(dst, ph.target log lh tail), (src, ph.source log lh tail)]
  | commit (.write ph tail dst src) => [(dst, ph.target log lh tail), (src, ph.source log lh tail)]
  | commit (.relSrc ph tail dst src) => [(dst, ph.target log lh tail), (src, ph.source log lh tail)]
  | commit (.relDst ph tail dst) => [(dst, ph.target log lh tail)]
  | commit (.putHead _ b) => [(b, log.start)]
  | commit (.writeHead _ b) => [(b, log.start)]
  | commit (.relHead _ b) => [(b, log.start)]
  | _ => []

/-- The buffer `commit` has changed and not yet written. -/
def changed : View → Option BufId
  | commit (.write _ _ dst _) => some dst
  | commit (.writeHead _ b) => some b
  | _ => none

def tail : View → Option ℕ
  | call (.first _ tail) _ _ => some tail
  | call (.second _ tail _) _ _ => some tail
  | commit (.copy _ tail _ _) => some tail
  | commit (.write _ tail _ _) => some tail
  | commit (.relSrc _ tail _ _) => some tail
  | commit (.relDst _ tail _) => some tail
  | _ => none

def asks (log : LogArea) (lh : List ℕ) : View → Option ℕ
  | call (.first _ tail) _ _ => some (log.start + tail + 1)
  | call (.second _ tail _) _ _ => some (lh.getD tail 0)
  | call (.head _) _ _ => some log.start
  | _ => none

/-- `commit` has copied the block at position `i` into the log and not yet cleared the
header in memory. -/
def Logged (i : ℕ) : View → Prop
  | call (.first .log tail) _ _ => i < tail
  | call (.second .log tail _) _ _ => i < tail
  | call (.first .install _) _ _ => True
  | call (.second .install _ _) _ _ => True
  | call (.head false) _ _ => True
  | commit (.loop .log tail) => i < tail
  | commit (.copy .log tail _ _) => i < tail
  | commit (.write .log tail _ _) => i < tail
  | commit (.relSrc .log tail _ _) => i < tail + 1
  | commit (.relDst .log tail _) => i < tail + 1
  | commit (.loop .install _) => True
  | commit (.copy .install _ _ _) => True
  | commit (.write .install _ _ _) => True
  | commit (.relSrc .install _ _ _) => True
  | commit (.relDst .install _ _) => True
  | commit .clear => True
  | commit (.putHead false _) => True
  | commit (.writeHead false _) => True
  | commit (.relHead false _) => True
  | _ => False

theorem Logged.inCommit {i : ℕ} {v : View} (h : v.Logged i) : v.InCommit := by
  cases v with
  | call k sector got => cases k <;> simp_all [Logged, InCommit]
  | commit c => trivial
  | _ => exact h.elim

end View

section

variable {P : Type*}

/-- The invariant of one process: what the `commit` it runs holds and has done. -/
structure ProcOk (log : LogArea) (s : BioState P) (p : P) (v : View) : Prop where
  committing : v.InCommit → s.committing = some p
  held : ∀ h ∈ v.held log s.lh, s.owner h.1 = some p ∧ (s.cache.buf h.1).valid = true ∧
    (s.cache.buf h.1).sector = h.2 ∧ (s.unsaved h.1 = true → v.changed = some h.1)
  apart : (v.held log s.lh).Pairwise fun h h' => h.1 ≠ h'.1
  fresh : ∀ k sector b, v = .call k sector (some b) → ∀ h ∈ v.held log s.lh, h.1 ≠ b
  copied : ∀ ph tail dst src, v = .commit (.write ph tail dst src) →
    (s.cache.buf dst).data = (s.cache.buf src).data
  tail : ∀ n, v.tail = some n → n < s.lh.length
  asks : ∀ k sector got, v = .call k sector got → ∀ x, v.asks log s.lh = some x → sector = x
  logging : ∀ b, v = .logging b → s.owner b = some p

variable {log : LogArea} {s u : BioState P} {p : P} {v : View}

theorem ProcOk.outside (hv : ¬v.InCommit) (hl : ∀ b, v ≠ .logging b) : ProcOk log s p v := by
  cases v with
  | user => constructor <;> simp_all [View.InCommit, View.held, View.tail]
  | logging b => exact absurd rfl (hl b)
  | call k sector got =>
    cases k <;> simp_all [View.InCommit]
    constructor <;> simp [View.InCommit, View.held, View.tail, View.asks]
  | commit c => exact absurd trivial hv

/-- Inside `commit` and outside `bread`. -/
theorem ProcOk.inside {c : CommitAt} (hcom : s.committing = some p)
    (hheld : ∀ h ∈ (View.commit c).held log s.lh, s.owner h.1 = some p ∧
      (s.cache.buf h.1).valid = true ∧ (s.cache.buf h.1).sector = h.2 ∧
      (s.unsaved h.1 = true → (View.commit c).changed = some h.1))
    (hapart : ((View.commit c).held log s.lh).Pairwise fun h h' => h.1 ≠ h'.1)
    (htail : ∀ n, (View.commit c).tail = some n → n < s.lh.length)
    (hcopied : ∀ ph n dst src, c = .write ph n dst src →
      (s.cache.buf dst).data = (s.cache.buf src).data) : ProcOk log s p (.commit c) :=
  ⟨fun _ => hcom, hheld, hapart, nofun,
    fun ph n dst src h => hcopied ph n dst src (View.commit.inj h), htail, nofun, nofun⟩

theorem View.held_append {lh t : List ℕ} (h : ∀ n, v.tail = some n → n < lh.length) :
    v.held log (lh ++ t) = v.held log lh := by
  have hget : ∀ n, v.tail = some n → (lh ++ t).getD n 0 = lh.getD n 0 := by
    intro n hn
    exact List.getD_append _ _ _ _ (h n hn)
  cases v with
  | call k sector got => cases k <;> rfl
  | commit c =>
    cases c with
    | copy ph n dst src => cases ph <;> simp only [held, Phase.target, Phase.source, hget n rfl]
    | write ph n dst src => cases ph <;> simp only [held, Phase.target, Phase.source, hget n rfl]
    | relSrc ph n dst src => cases ph <;> simp only [held, Phase.target, Phase.source, hget n rfl]
    | relDst ph n dst => cases ph <;> simp only [held, Phase.target, hget n rfl]
    | _ => rfl
  | _ => rfl

theorem View.asks_append {lh t : List ℕ} (h : ∀ n, v.tail = some n → n < lh.length) :
    v.asks log (lh ++ t) = v.asks log lh := by
  cases v with
  | call k sector got =>
    cases k with
    | second ph n b₁ =>
      have hn := h n rfl
      simp only [asks]
      rw [List.getD_append _ _ _ _ hn]
    | _ => rfl
  | _ => rfl

/-- A step of another process, which keeps its hands off the buffers `p` holds, and only adds
to the header while `p` is in `commit`. -/
theorem ProcOk.frame (h : ProcOk log s p v)
    (hbuf : ∀ b, s.owner b = some p → u.cache.buf b = s.cache.buf b ∧ u.owner b = some p ∧
      u.unsaved b = s.unsaved b)
    (hcom : s.committing = some p → u.committing = some p)
    (hlh : s.committing = some p → ∃ t, u.lh = s.lh ++ t) : ProcOk log u p v := by
  by_cases hv : v.InCommit
  · obtain ⟨t, ht⟩ := hlh (h.committing hv)
    have hheld : v.held log u.lh = v.held log s.lh := by rw [ht, View.held_append h.tail]
    constructor
    · exact fun _ => hcom (h.committing hv)
    · intro x hx
      rw [hheld] at hx
      obtain ⟨h1, h2, h3, h4⟩ := h.held x hx
      obtain ⟨hb, ho, hu⟩ := hbuf x.1 h1
      rw [hb, hu]
      exact ⟨ho, h2, h3, h4⟩
    · rw [hheld]
      exact h.apart
    · rw [hheld]
      exact h.fresh
    · rintro ph n dst src rfl
      have hd := h.held (dst, ph.target log s.lh n) (by simp [View.held])
      have hs := h.held (src, ph.source log s.lh n) (by simp [View.held])
      rw [(hbuf dst hd.1).1, (hbuf src hs.1).1]
      exact h.copied ph n dst src rfl
    · intro n hn
      have hlt := h.tail n hn
      rw [ht, List.length_append]
      omega
    · rw [ht, View.asks_append h.tail]
      exact h.asks
    · rintro b rfl
      exact hv.elim
  · by_cases hl : ∃ b, v = .logging b
    · obtain ⟨b, rfl⟩ := hl
      have hb := h.logging b rfl
      constructor <;> simp [View.InCommit, View.held, View.tail]
      exact (hbuf b hb).2.1
    · exact ProcOk.outside hv fun b hb => hl ⟨b, hb⟩

def Keeps (s u : BioState P) (q : P) : Prop :=
  ∀ b, s.owner b = some q → u.cache.buf b = s.cache.buf b ∧ u.owner b = some q ∧
    u.unsaved b = s.unsaved b

theorem Keeps.refl_of {q : P} (hc : u.cache = s.cache) (ho : u.owner = s.owner)
    (hu : u.unsaved = s.unsaved) : Keeps s u q := by
  intro b hb
  rw [hc, ho, hu]
  exact ⟨rfl, hb, rfl⟩

theorem keeps_raise (s : BioState P) (msg : String) (q : P) : Keeps s (s.raise msg) q :=
  Keeps.refl_of rfl rfl rfl

theorem keeps_modify {b : BufId} {q : P} (ho : s.owner b ≠ some q) (data : Block) :
    Keeps s (s.modify b data) q := by
  intro b' hb'
  have hne : b' ≠ b := by
    rintro rfl
    exact ho hb'
  exact ⟨Bcache.setBuf_of_ne hne _ _, hb', Function.update_of_ne hne _ _⟩

theorem keeps_bwrite {b : BufId} {q : P} (ho : s.owner b ≠ some q) (o : Origin) :
    Keeps s (s.bwrite b o) q := by
  unfold BioState.bwrite BioState.onCache
  split
  · next c hc =>
    obtain ⟨-, rfl⟩ := Bcache.bwrite_ok hc
    intro b' hb'
    have hne : b' ≠ b := by
      rintro rfl
      exact ho hb'
    exact ⟨Bcache.setBuf_of_ne hne _ _, hb', Function.update_of_ne hne _ _⟩
  · exact keeps_raise s _ q

theorem keeps_brelse {b : BufId} {q : P} (ho : s.owner b ≠ some q) : Keeps s (s.brelse b) q := by
  unfold BioState.brelse BioState.onCache
  split
  · next c hc =>
    rw [Bcache.brelse_ok hc]
    intro b' hb'
    have hne : b' ≠ b := by
      rintro rfl
      exact ho hb'
    exact ⟨Bcache.setBuf_of_ne hne _ _, (Function.update_of_ne hne _ _).trans hb', rfl⟩
  · exact keeps_raise s _ q

/-- Ordinary processes store below the log only. -/
def Untampered (log : LogArea) (s : BioState P) : Prop :=
  ∀ w ∈ s.stores, w.origin ≠ .commit → w.sector < log.start

/-- An ordinary process stored to the sector while a commit had it in its header. -/
def Raced (s : BioState P) (x : ℕ) : Prop := ∃ w ∈ s.stores, w.sector = x ∧ w.origin = .racing

def directStores (ws : List Store) : List Store := ws.filter fun w => w.origin ≠ .commit

/-- What commits keep: the log holds the blocks of the sectors in the header, and sectors
below the log hold what ordinary processes stored last. -/
structure LogOk (log : LogArea) (d : Disk) (s : BioState P) : Prop where
  below : ∀ x ∈ s.lh, x < log.start
  same : ∀ x < log.start, ¬Raced s x → flat d s.stores x = flat d (directStores s.stores) x
  logged : ∀ p i, (s.pc p).view.Logged i → i < s.lh.length → Raced s (s.lh.getD i 0) ∨
    flat d s.stores (log.start + i + 1) = flat d s.stores (s.lh.getD i 0)

theorem LogOk.quiet {d : Disk} (h : LogOk log d s) (hs : u.stores = s.stores) (hl : u.lh = s.lh)
    (hp : ∀ q i, (u.pc q).view.Logged i → i < s.lh.length → (s.pc q).view.Logged i) :
    LogOk log d u := by
  have hraced : ∀ x, Raced u x ↔ Raced s x := by
    intro x
    simp [Raced, hs]
  constructor
  · rw [hl]
    exact h.below
  · intro x hx hr
    rw [hs]
    exact h.same x hx (by rwa [← hraced x])
  · intro q i hq hi
    rw [hl] at hi ⊢
    rw [hs, hraced]
    exact h.logged q i (hp q i hq hi) hi

theorem Raced.cons {w : Store} (hs : u.stores = w :: s.stores) {x : ℕ} (h : Raced s x) :
    Raced u x := by
  obtain ⟨w', hw', hx⟩ := h
  exact ⟨w', by rw [hs]; exact List.mem_cons_of_mem w hw', hx⟩

theorem LogOk.direct {d : Disk} {w : Store} (h : LogOk log d s) (hs : u.stores = w :: s.stores)
    (hw : w.origin ≠ .commit) (hbelow : w.sector < log.start) {t : List ℕ}
    (hl : u.lh = s.lh ++ t) (ht : ∀ x ∈ t, x = w.sector)
    (hrace : ∀ q, (u.pc q).view.InCommit → w.sector ∈ u.lh → w.origin = .racing)
    (hp : ∀ q i, (u.pc q).view.Logged i → (s.pc q).view.Logged i) :
    LogOk log d u := by
  have hnew : ∀ q, (u.pc q).view.InCommit → w.sector ∈ u.lh → Raced u w.sector := by
    intro q hq hmem
    exact ⟨w, by rw [hs]; exact List.mem_cons_self, rfl, hrace q hq hmem⟩
  constructor
  · intro x hx
    rw [hl, List.mem_append] at hx
    rcases hx with hx | hx
    · exact h.below x hx
    · rwa [ht x hx]
  · intro x hx hr
    rw [hs, directStores, List.filter_cons_of_pos (by simpa using hw), flat_cons, flat_cons]
    by_cases hxw : x = w.sector
    · rw [hxw, Function.update_self, Function.update_self]
    · rw [Function.update_of_ne hxw, Function.update_of_ne hxw]
      exact h.same x hx fun hr' => hr (hr'.cons hs)
  · intro q i hq hi
    have hmem : u.lh.getD i 0 ∈ u.lh := by
      rw [List.getD_eq_getElem _ _ hi]
      exact List.getElem_mem hi
    by_cases hxw : u.lh.getD i 0 = w.sector
    · exact Or.inl (hxw ▸ hnew q hq.inCommit (hxw ▸ hmem))
    · have hlt : i < s.lh.length := by
        by_contra hge
        rw [hl, List.getD_append_right _ _ _ _ (by omega)] at hxw
        rw [hl, List.length_append] at hi
        rw [List.getD_eq_getElem _ _ (by omega)] at hxw
        exact hxw (ht _ (List.getElem_mem _))
      rw [hl, List.getD_append _ _ _ _ hlt] at hxw ⊢
      rw [hs, flat_cons, Function.update_of_ne hxw, Function.update_of_ne (by omega)]
      rcases h.logged q i (hp q i hq) hlt with hr | he
      · exact Or.inl (hr.cons hs)
      · exact Or.inr he

/-- A store by a commit: a log block takes what its home sector holds, the header block takes
anything, and a home sector takes what it holds already. -/
theorem LogOk.commit {d : Disk} {w : Store} (h : LogOk log d s) (hs : u.stores = w :: s.stores)
    (hw : w.origin = .commit) (hl : u.lh = s.lh)
    (hdata : w.sector < log.start → ¬Raced s w.sector → w.data = flat d s.stores w.sector)
    (hp : ∀ q i, (u.pc q).view.Logged i → i < s.lh.length →
      ((s.pc q).view.Logged i ∧ log.start + i + 1 ≠ w.sector) ∨
        (log.start + i + 1 = w.sector ∧ w.data = flat d s.stores (s.lh.getD i 0))) :
    LogOk log d u := by
  have hflat : ∀ x < log.start, ¬Raced s x → flat d u.stores x = flat d s.stores x := by
    intro x hx hr
    rw [hs, flat_cons]
    by_cases hxw : x = w.sector
    · subst hxw
      rw [Function.update_self, hdata hx hr]
    · rw [Function.update_of_ne hxw]
  constructor
  · rw [hl]
    exact h.below
  · intro x hx hr
    have hr' : ¬Raced s x := fun hr' => hr (hr'.cons hs)
    rw [hflat x hx hr', h.same x hx hr', hs, directStores, directStores,
      List.filter_cons_of_neg (by simpa using hw)]
  · intro q i hq hi
    rw [hl] at hi ⊢
    have hx : s.lh.getD i 0 < log.start := by
      apply h.below
      rw [List.getD_eq_getElem _ _ hi]
      exact List.getElem_mem hi
    by_cases hr : Raced s (s.lh.getD i 0)
    · exact Or.inl (hr.cons hs)
    · refine Or.inr ?_
      rw [hflat _ hx hr, hs, flat_cons]
      rcases hp q i hq hi with ⟨hold, hne⟩ | ⟨heq, hd⟩
      · rw [Function.update_of_ne hne]
        exact (h.logged q i hold hi).resolve_left hr
      · rw [heq, Function.update_self, hd]

structure SysInv (log : LogArea) (d : Disk) (s : BioState P) : Prop where
  bio : BioInv d s
  proc : ∀ p, ProcOk log s p (s.pc p).view
  log : Untampered log s → LogOk log d s

theorem ProcOk.same (h : ProcOk log s p v) (hc : u.cache = s.cache) (ho : u.owner = s.owner)
    (hu : u.unsaved = s.unsaved) (hcom : u.committing = s.committing) (hl : u.lh = s.lh) :
    ProcOk log u p v :=
  h.frame (Keeps.refl_of hc ho hu) (fun hs => hcom.trans hs) fun _ => ⟨[], by simp [hl]⟩

theorem SysInv.raise {d : Disk} (h : SysInv log d s) (msg : String) :
    SysInv log d (s.raise msg) where
  bio := h.bio.raise msg
  proc q := (h.proc q).same rfl rfl rfl rfl rfl
  log ht := (h.log ht).quiet rfl rfl fun _ _ hq _ => hq

/-- A step of `p`: the other processes stand where they stood and keep their buffers. -/
theorem SysInv.step {d : Disk} (h : SysInv log d s) (p : P) (hbio : BioInv d u)
    (hview : ∀ q ≠ p, (u.pc q).view = (s.pc q).view) (hkeep : ∀ q ≠ p, Keeps s u q)
    (hcom : ∀ q ≠ p, s.committing = some q → u.committing = some q)
    (hlh : ∀ q ≠ p, s.committing = some q → ∃ t, u.lh = s.lh ++ t)
    (hp : ProcOk log u p (u.pc p).view) (hlog : Untampered log u → LogOk log d u) :
    SysInv log d u where
  bio := hbio
  proc q := by
    by_cases hq : q = p
    · exact hq ▸ hp
    · rw [hview q hq]
      exact (h.proc q).frame (hkeep q hq) (hcom q hq) (hlh q hq)
  log := hlog

end

end Xv6
