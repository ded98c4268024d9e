import Xv6.Bio.Cache
import Mathlib.Data.Fintype.Card

/-! What every step of the processes keeps about the buffer cache: the list of buffers, their
tags and flags, and how their data and the disk relate to the stores made so far. -/
namespace Xv6

namespace Bcache

theorem setBuf_same (c : Bcache) (b : BufId) (x : Buf) : (c.setBuf b x).buf b = x := by
  simp [setBuf]

theorem setBuf_of_ne {b b' : BufId} (h : b' ≠ b) (c : Bcache) (x : Buf) :
    (c.setBuf b x).buf b' = c.buf b' := by
  simp [setBuf, h]

@[simp] theorem setBuf_links (c : Bcache) (b : BufId) (x : Buf) :
    (c.setBuf b x).links = c.links := rfl

@[simp] theorem setBuf_disk (c : Bcache) (b : BufId) (x : Buf) :
    (c.setBuf b x).disk = c.disk := rfl

def Listed (c : Bcache) (l : List BufId) : Prop :=
  c.links.Ring none (l.map some) ∧ ∀ b, b ∈ l

theorem Listed.nodup {c : Bcache} {l : List BufId} (h : c.Listed l) : l.Nodup :=
  (List.nodup_cons.mp h.1.2).2.of_map some

theorem Listed.length_le {c : Bcache} {l : List BufId} (h : c.Listed l) : l.length ≤ NBUF := by
  simpa using List.Nodup.length_le_card h.nodup

theorem Listed.scanNext {c : Bcache} {l : List BufId} (h : c.Listed l) (q : Buf → Bool) :
    c.scanNext q = l.find? fun b => q (c.buf b) :=
  h.1.1.walk_next _ (Nat.lt_succ_of_le h.length_le)

theorem Listed.scanPrev {c : Bcache} {l : List BufId} (h : c.Listed l) (q : Buf → Bool) :
    c.scanPrev q = l.reverse.find? fun b => q (c.buf b) :=
  h.1.1.walk_prev _ (Nat.lt_succ_of_le h.length_le)

theorem listed_binit (d : Disk) (disksize : ℕ) :
    (binit d disksize).Listed (List.finRange NBUF).reverse := by
  have hmap : ((List.finRange NBUF).map some).foldl
      (fun k b => Links.pushFront k none b) ⟨fun _ => none, fun _ => none⟩ =
        (binit d disksize).links := by
    rw [List.foldl_map]
    rfl
  have hring := Links.ring_foldl_pushFront ((List.finRange NBUF).map some)
    (Links.ring_empty (none : Option BufId)) (by
      rw [List.nodup_append]
      refine ⟨(List.nodup_finRange NBUF).map (Option.some_injective _), by simp, ?_⟩
      simp)
  rw [hmap, List.append_nil, ← List.map_reverse] at hring
  exact ⟨hring, fun b => List.mem_reverse.mpr (List.mem_finRange b)⟩

/-- `bget` takes a free buffer of the sector; or, when no buffer has the sector, one that is
neither busy nor dirty. -/
theorem bget_got {c c' : Bcache} {l : List BufId} (h : c.Listed l) {dev sector : ℕ} {b : BufId}
    (hg : c.bget dev sector = .got c' b) :
    ((c.buf b).dev = dev ∧ (c.buf b).sector = sector ∧ (c.buf b).busy = false ∧
        c' = c.setBuf b { c.buf b with busy := true }) ∨
      ((∀ b', (c.buf b').dev = dev → (c.buf b').sector ≠ sector) ∧ (c.buf b).busy = false ∧
        (c.buf b).dirty = false ∧
        c' = c.setBuf b ⟨dev, sector, true, false, false, (c.buf b).data⟩) := by
  unfold bget at hg
  cases hs : c.scanNext fun x => x.dev == dev && x.sector == sector with
  | some b₁ =>
    simp only [hs] at hg
    rw [h.scanNext] at hs
    have hb := List.find?_some hs
    simp only [Bool.and_eq_true, beq_iff_eq] at hb
    split_ifs at hg with hbusy
    simp only [Bget.got.injEq] at hg
    obtain ⟨rfl, rfl⟩ := hg
    exact Or.inl ⟨hb.1, hb.2, by simpa using hbusy, rfl⟩
  | none =>
    simp only [hs] at hg
    rw [h.scanNext, List.find?_eq_none] at hs
    cases hp : c.scanPrev fun x => !x.busy && !x.dirty with
    | some b₁ =>
      simp only [hp, Bget.got.injEq] at hg
      obtain ⟨rfl, rfl⟩ := hg
      rw [h.scanPrev] at hp
      have hb := List.find?_some hp
      simp only [Bool.and_eq_true, Bool.not_eq_true'] at hb
      refine Or.inr ⟨?_, hb.1, hb.2, rfl⟩
      intro b' hdev hsec
      exact hs b' (h.2 b') (by simp [hdev, hsec])
    | none => simp [hp] at hg

theorem fill_ok {c c' : Bcache} {b : BufId} (hd : (c.buf b).dirty = true → (c.buf b).valid = true)
    (h : c.fill b = .ok c') :
    ((c.buf b).valid = true ∧ c' = c) ∨
      ((c.buf b).valid = false ∧ (c.buf b).dev = 1 ∧ (c.buf b).dirty = false ∧
        c' = c.setBuf b { c.buf b with data := c.disk (c.buf b).sector, valid := true }) := by
  unfold fill at h
  split_ifs at h with hv
  · exact Or.inl ⟨hv, (Except.ok.inj h).symm⟩
  · have hnd : (c.buf b).dirty = false := by
      cases hdb : (c.buf b).dirty with
      | false => rfl
      | true => exact absurd (hd hdb) hv
    unfold iderw at h
    simp only [hnd, Bool.false_eq_true, if_false] at h
    split_ifs at h with h1 h2 h3 h4
    have hok := (Except.ok.inj h).symm
    refine Or.inr ⟨by simpa using hv, by simpa using h3, hnd, ?_⟩
    simp only [hok, hnd]

theorem bwrite_ok {c c' : Bcache} {b : BufId} (h : c.bwrite b = .ok c') :
    (c.buf b).dev = 1 ∧
      c' = { c.setBuf b { c.buf b with dirty := false, valid := true } with
        disk := Function.update c.disk (c.buf b).sector (c.buf b).data } := by
  unfold bwrite iderw at h
  simp only [setBuf_same] at h
  split_ifs at h with h1 h2 h3 h4
  refine ⟨by simpa using h3, ?_⟩
  rw [← Except.ok.inj h]
  simp [setBuf]

theorem brelse_ok {c c' : Bcache} {b : BufId} (h : c.brelse b = .ok c') :
    c' = { c.setBuf b { c.buf b with busy := false } with
      links := (c.links.unlink (some b)).pushFront none (some b) } := by
  unfold brelse at h
  split_ifs at h
  exact (Except.ok.inj h).symm

theorem brelse_ring {c c' : Bcache} {l : List BufId} {b : BufId} (hl : c.Listed l)
    (h : c.brelse b = .ok c') : c'.Listed (b :: l.erase b) := by
  obtain ⟨l₁, l₂, -, rfl, herase⟩ := List.exists_erase_eq (hl.2 b)
  have hk := hl.1
  rw [List.map_append, List.map_cons] at hk
  have hun := hk.unlink
  have hnb : some b ∉ none :: (l₁.map some ++ l₂.map some) := by
    have hnd := hl.nodup
    rw [List.nodup_middle, List.nodup_cons] at hnd
    simpa using hnd.1
  have hpush := hun.pushFront hnb
  rw [brelse_ok h]
  refine ⟨?_, ?_⟩
  · simpa [herase] using hpush
  · intro x
    by_cases hx : x = b
    · simp [hx]
    · exact List.mem_cons_of_mem b ((List.mem_erase_of_ne hx).mpr (hl.2 x))

end Bcache

def BioPc.fills : BioPc → Option (ℕ × ℕ × BufId)
  | .filling _ dev sector b => some (dev, sector, b)
  | _ => none

@[simp] theorem BioPc.fills_wakeup (b : BufId) (c : BioPc) : (c.wakeup b).fills = c.fills := by
  cases c with
  | asleep k dev sector b' =>
    simp only [wakeup]
    split_ifs <;> rfl
  | _ => rfl

@[simp] theorem flat_nil (d : Disk) : flat d [] = d := rfl

@[simp] theorem flat_cons (d : Disk) (w : Store) (ws : List Store) :
    flat d (w :: ws) = Function.update (flat d ws) w.sector w.data := rfl

variable {P : Type*} [DecidableEq P]

/-- The buffers from most to least recently released; those never released come last, as
`binit` put them. -/
def BioState.order (s : BioState P) : List BufId :=
  Links.mru (s.released ++ (List.finRange NBUF).reverse)

/-- The invariant of one buffer. `d` is the disk before the first store. -/
structure BufInv (d : Disk) (s : BioState P) (b : BufId) : Prop where
  busy : (s.cache.buf b).busy = true ↔ s.owner b ≠ none
  owned : ∀ p, s.owner b = some p →
    (s.cache.buf b).valid = true ∨ ∃ dev sector, (s.pc p).fills = some (dev, sector, b)
  valid : (s.cache.buf b).valid = true → (s.cache.buf b).dev = ROOTDEV
  dirty : (s.cache.buf b).dirty = true → (s.cache.buf b).valid = true
  unsaved : s.unsaved b = true → (s.cache.buf b).valid = true ∧ s.owner b ≠ none
  data : (s.cache.buf b).valid = true → s.unsaved b = false →
    (s.cache.buf b).data = flat d s.stores (s.cache.buf b).sector

structure BioInv (d : Disk) (s : BioState P) : Prop where
  listed : s.cache.Listed s.order
  unique : ∀ b b', (s.cache.buf b).dev ≠ NODEV → (s.cache.buf b').dev = (s.cache.buf b).dev →
    (s.cache.buf b').sector = (s.cache.buf b).sector → b' = b
  filling : ∀ p dev sector b, (s.pc p).fills = some (dev, sector, b) →
    s.owner b = some p ∧ (s.cache.buf b).dev = dev ∧ (s.cache.buf b).sector = sector ∧
      s.unsaved b = false
  buf : ∀ b, BufInv d s b
  disk : ∀ x, s.cache.disk x = flat d s.stores x ∨
    ∃ b, (s.cache.buf b).dev = ROOTDEV ∧ (s.cache.buf b).sector = x ∧ (s.cache.buf b).dirty = true

section Basics

variable {P : Type*} {d : Disk} {s u : BioState P}

theorem BufInv.congr {b : BufId} (h : BufInv d s b) (hb : u.cache.buf b = s.cache.buf b)
    (ho : u.owner b = s.owner b) (hu : u.unsaved b = s.unsaved b)
    (hf : ∀ p, s.owner b = some p → (s.cache.buf b).valid = true ∨ (u.pc p).fills = (s.pc p).fills)
    (hs : (s.cache.buf b).valid = true →
      flat d u.stores (s.cache.buf b).sector = flat d s.stores (s.cache.buf b).sector) :
    BufInv d u b := by
  constructor
  · rw [hb, ho]
    exact h.busy
  · intro p hp
    rw [ho] at hp
    rw [hb]
    rcases hf p hp with hv | hfp
    · exact Or.inl hv
    · rw [hfp]
      exact h.owned p hp
  · rw [hb]
    exact h.valid
  · rw [hb]
    exact h.dirty
  · rw [hb, ho, hu]
    exact h.unsaved
  · rw [hb, hu]
    intro hv hun
    rw [hs hv]
    exact h.data hv hun

namespace BioInv

theorem congr (h : BioInv d s) (hc : u.cache = s.cache) (ho : u.owner = s.owner)
    (hu : u.unsaved = s.unsaved) (hs : u.stores = s.stores) (hr : u.released = s.released)
    (hf : ∀ p, (u.pc p).fills = (s.pc p).fills) : BioInv d u := by
  have hord : u.order = s.order := by simp [BioState.order, hr]
  constructor
  · rw [hc, hord]
    exact h.listed
  · rw [hc]
    exact h.unique
  · rw [hc, ho, hu]
    simp only [hf]
    exact h.filling
  · intro b
    exact (h.buf b).congr (by rw [hc]) (by rw [ho]) (by rw [hu]) (fun p _ => Or.inr (hf p))
      (fun _ => by rw [hs])
  · rw [hc, hs]
    exact h.disk

/-- A process that is not waiting for the contents of `b` holds it with its contents. -/
theorem valid_of_owner (h : BioInv d s) {p : P} {b : BufId} (ho : s.owner b = some p)
    (hf : (s.pc p).fills = none) : (s.cache.buf b).valid = true := by
  rcases (h.buf b).owned p ho with hv | ⟨dev, sector, hp⟩
  · exact hv
  · simp [hf] at hp

theorem eq_of_valid (h : BioInv d s) {b b' : BufId} (hb : (s.cache.buf b).dev = ROOTDEV)
    (hb' : (s.cache.buf b').dev = ROOTDEV)
    (hs : (s.cache.buf b').sector = (s.cache.buf b).sector) : b' = b :=
  h.unique b b' (by rw [hb]; decide) (hb'.trans hb.symm) hs

theorem disk_of_clean (h : BioInv d s) {b : BufId} (hdev : (s.cache.buf b).dev = ROOTDEV)
    (hd : (s.cache.buf b).dirty = false) :
    s.cache.disk (s.cache.buf b).sector = flat d s.stores (s.cache.buf b).sector := by
  rcases h.disk (s.cache.buf b).sector with hx | ⟨b', hdev', hsec, hd'⟩
  · exact hx
  · rw [h.eq_of_valid hdev hdev' hsec, hd] at hd'
    simp at hd'

theorem raise (h : BioInv d s) (msg : String) : BioInv d (s.raise msg) :=
  h.congr rfl rfl rfl rfl rfl fun _ => rfl

/-- A change of the buffer `b` that keeps its tag and what other sectors hold. -/
theorem change (h : BioInv d s) {b : BufId} {x : Buf}
    (hbuf : u.cache.buf = Function.update s.cache.buf b x) (hlisted : u.cache.Listed u.order)
    (hdev : x.dev = (s.cache.buf b).dev) (hsec : x.sector = (s.cache.buf b).sector)
    (hroot : x.dev = ROOTDEV) (hown : ∀ b' ≠ b, u.owner b' = s.owner b')
    (huns : ∀ b' ≠ b, u.unsaved b' = s.unsaved b')
    (hflat : ∀ y ≠ x.sector, flat d u.stores y = flat d s.stores y)
    (hdisk : ∀ y ≠ x.sector, u.cache.disk y = s.cache.disk y)
    (hpc : ∀ q dev sector b', (u.pc q).fills = some (dev, sector, b') →
      (s.pc q).fills = some (dev, sector, b') ∧ b' ≠ b)
    (hpc' : ∀ q b', s.owner b' = some q → b' ≠ b → (u.pc q).fills = (s.pc q).fills ∨
      (s.cache.buf b').valid = true)
    (hb : BufInv d u b)
    (hx : u.cache.disk x.sector = flat d u.stores x.sector ∨ x.dirty = true) : BioInv d u := by
  have hsame : u.cache.buf b = x := by rw [hbuf, Function.update_self]
  have hother : ∀ b' ≠ b, u.cache.buf b' = s.cache.buf b' := by
    intro b' hb'
    rw [hbuf, Function.update_of_ne hb']
  have htag : ∀ b', (u.cache.buf b').dev = (s.cache.buf b').dev ∧
      (u.cache.buf b').sector = (s.cache.buf b').sector := by
    intro b'
    by_cases hb' : b' = b
    · rw [hb', hsame]
      exact ⟨hdev, hsec⟩
    · rw [hother b' hb']
      exact ⟨rfl, rfl⟩
  have hapart : ∀ b', b' ≠ b → (s.cache.buf b').dev = ROOTDEV →
      (s.cache.buf b').sector ≠ x.sector := by
    intro b' hb' hdev' hsec'
    exact hb' (h.eq_of_valid (hdev ▸ hroot) hdev' (hsec'.trans hsec))
  constructor
  · exact hlisted
  · intro b₁ b₂
    rw [(htag b₁).1, (htag b₁).2, (htag b₂).1, (htag b₂).2]
    exact h.unique b₁ b₂
  · intro q dev sector b' hq
    obtain ⟨hq, hb'⟩ := hpc q dev sector b' hq
    rw [hown b' hb', (htag b').1, (htag b').2, huns b' hb']
    exact h.filling q dev sector b' hq
  · intro b'
    by_cases hb' : b' = b
    · exact hb' ▸ hb
    · apply (h.buf b').congr (hother b' hb') (hown b' hb') (huns b' hb')
      · exact fun q hq => (hpc' q b' hq hb').symm
      · intro hv
        exact hflat _ (hapart b' hb' ((h.buf b').valid hv))
  · intro y
    by_cases hy : y = x.sector
    · rw [hy]
      rcases hx with hx | hx
      · exact Or.inl hx
      · exact Or.inr ⟨b, by rw [hsame]; exact ⟨hroot, rfl, hx⟩⟩
    · rw [hdisk y hy, hflat y hy]
      rcases h.disk y with hd | ⟨b', hdev', hsec', hd'⟩
      · exact Or.inl hd
      · have hb' : b' ≠ b := by
          rintro rfl
          exact hy (hsec'.symm.trans hsec.symm)
        exact Or.inr ⟨b', by rw [hother b' hb']; exact ⟨hdev', hsec', hd'⟩⟩

/-- A process that is not waiting for a buffer changes one that it holds; `hpc` says that the
step leaves the requests of all processes alone. -/
theorem change_held (h : BioInv d s) {p : P} {b : BufId} {x : Buf}
    (hown : s.owner b = some p) (hp : (s.pc p).fills = none)
    (hbuf : u.cache.buf = Function.update s.cache.buf b x)
    (hlinks : u.cache.links = s.cache.links) (hrel : u.released = s.released)
    (hx : x.dev = (s.cache.buf b).dev ∧ x.sector = (s.cache.buf b).sector ∧
      x.busy = (s.cache.buf b).busy ∧ x.valid = true)
    (howner : u.owner = s.owner) (huns : ∀ b' ≠ b, u.unsaved b' = s.unsaved b')
    (hflat : ∀ y ≠ x.sector, flat d u.stores y = flat d s.stores y)
    (hdisk : ∀ y ≠ x.sector, u.cache.disk y = s.cache.disk y)
    (hpc : ∀ q, (u.pc q).fills = (s.pc q).fills)
    (hdata : u.unsaved b = false → x.data = flat d u.stores x.sector)
    (hxd : u.cache.disk x.sector = flat d u.stores x.sector ∨ x.dirty = true) : BioInv d u := by
  have hroot : x.dev = ROOTDEV := hx.1.trans ((h.buf b).valid (h.valid_of_owner hown hp))
  have hsame : u.cache.buf b = x := by rw [hbuf, Function.update_self]
  have hlisted : u.cache.Listed u.order := by
    have hord : u.order = s.order := by simp [BioState.order, hrel]
    rw [hord, Bcache.Listed, hlinks]
    exact h.listed
  refine h.change hbuf hlisted hx.1 hx.2.1 hroot (fun b' _ => congrFun howner b') huns hflat hdisk
    ?_ ?_ ?_ hxd
  · intro q dev sector b' hq
    rw [hpc] at hq
    refine ⟨hq, ?_⟩
    rintro rfl
    have hoq := (h.filling q dev sector b' hq).1
    rw [hown, Option.some.injEq] at hoq
    rw [← hoq, hp] at hq
    simp at hq
  · exact fun q b' _ _ => Or.inl (hpc q)
  · constructor
    · rw [hsame, howner, hx.2.2.1]
      exact (h.buf b).busy
    · exact fun _ _ => Or.inl (hsame ▸ hx.2.2.2)
    · rw [hsame]
      exact fun _ => hroot
    · rw [hsame]
      exact fun _ => hx.2.2.2
    · rw [hsame, howner, hown]
      exact fun _ => ⟨hx.2.2.2, by simp⟩
    · rw [hsame]
      exact fun _ => hdata

theorem modify (h : BioInv d s) {p : P} {b : BufId} (hown : s.owner b = some p)
    (hp : (s.pc p).fills = none) (data : Block) : BioInv d (s.modify b data) := by
  have hv := h.valid_of_owner hown hp
  refine h.change_held hown hp rfl rfl rfl ⟨rfl, rfl, rfl, hv⟩ rfl ?_ (fun _ _ => rfl)
    (fun _ _ => rfl) (fun _ => rfl) ?_ ?_
  · intro b' hb'
    exact Function.update_of_ne hb' _ _
  · intro hu
    simp [BioState.modify] at hu
  · cases hd : (s.cache.buf b).dirty with
    | true => exact Or.inr rfl
    | false => exact Or.inl (h.disk_of_clean ((h.buf b).valid hv) hd)

theorem bwrite (h : BioInv d s) {p : P} {b : BufId} (hown : s.owner b = some p)
    (hp : (s.pc p).fills = none) (o : Origin) : BioInv d (s.bwrite b o) := by
  unfold BioState.bwrite BioState.onCache
  split
  · next c hc =>
    obtain ⟨-, rfl⟩ := Bcache.bwrite_ok hc
    refine h.change_held hown hp rfl rfl rfl ⟨rfl, rfl, rfl, rfl⟩ rfl ?_ ?_ ?_ (fun _ => rfl) ?_ ?_
    · intro b' hb'
      exact Function.update_of_ne hb' _ _
    · intro y hy
      simp only [BioState.record, flat_cons, Bcache.setBuf_same]
      exact Function.update_of_ne hy _ _
    · intro y hy
      exact Function.update_of_ne hy _ _
    · intro _
      simp [BioState.record, Bcache.setBuf_same]
    · simp [BioState.record, Bcache.setBuf_same]
  · exact h.raise _

theorem brelse (h : BioInv d s) {p : P} {b : BufId} (hown : s.owner b = some p)
    (hp : (s.pc p).fills = none) (hsaved : s.unsaved b = false) : BioInv d (s.brelse b) := by
  have hv := h.valid_of_owner hown hp
  unfold BioState.brelse BioState.onCache
  split
  · next c hc =>
    have hring := Bcache.brelse_ring h.listed hc
    rw [Bcache.brelse_ok hc] at hring ⊢
    refine h.change (b := b) rfl hring rfl rfl ((h.buf b).valid hv) ?_ (fun _ _ => rfl)
      (fun _ _ => rfl) (fun _ _ => rfl) ?_ ?_ ?_ ?_
    · intro b' hb'
      exact Function.update_of_ne hb' _ _
    · intro q dev sector b' hq
      simp only [BioPc.fills_wakeup] at hq
      refine ⟨hq, ?_⟩
      rintro rfl
      have hoq := (h.filling q dev sector b' hq).1
      rw [hown, Option.some.injEq] at hoq
      rw [← hoq, hp] at hq
      simp at hq
    · exact fun q b' _ _ => Or.inl (BioPc.fills_wakeup b (s.pc q))
    · constructor <;> simp only [Bcache.setBuf_same, Function.update_self]
      · simp
      · simp
      · exact (h.buf b).valid
      · exact (h.buf b).dirty
      · simp [hsaved]
      · exact (h.buf b).data
    · cases hd : (s.cache.buf b).dirty with
      | true => exact Or.inr rfl
      | false => exact Or.inl (h.disk_of_clean ((h.buf b).valid hv) hd)
  · exact h.raise _

end BioInv

end Basics

namespace BioInv

variable {P : Type*} [DecidableEq P] {d : Disk} {s : BioState P}

theorem fills_setPc {p : P} {c : BioPc} (h : c.fills = (s.pc p).fills) (q : P) :
    ((s.setPc p c).pc q).fills = (s.pc q).fills := by
  by_cases hq : q = p
  · rw [hq, ← h]
    simp [BioState.setPc]
  · simp [BioState.setPc, Function.update_of_ne hq]

theorem setPc (h : BioInv d s) {p : P} {c : BioPc} (hc : c.fills = (s.pc p).fills) :
    BioInv d (s.setPc p c) :=
  h.congr rfl rfl rfl rfl rfl (fills_setPc hc)

/-- A buffer that was free is now held by `p`, which waits for its contents: the buffer of
the requested sector, or one that has just been given it. -/
theorem got (h : BioInv d s) {p : P} {k : Caller} {dev sector : ℕ} {b : BufId} {c : Bcache}
    (hf : (s.pc p).fills = none) (hg : s.cache.bget dev sector = .got c b) :
    BioInv d { s.setPc p (.filling k dev sector b) with
      cache := c, owner := Function.update s.owner b (some p) } := by
  have hcase := Bcache.bget_got h.listed hg
  have hfree : (s.cache.buf b).busy = false := by
    rcases hcase with hc | hc
    · exact hc.2.2.1
    · exact hc.2.1
  have hnone : s.owner b = none := by
    by_contra ho
    simp [(h.buf b).busy.mpr ho] at hfree
  have hsaved : s.unsaved b = false := by
    by_contra hu
    exact ((h.buf b).unsaved (by simpa using hu)).2 hnone
  obtain ⟨x, hx, hxdev, hxsec, hxbusy, hxv⟩ : ∃ x, c = s.cache.setBuf b x ∧ x.dev = dev ∧
      x.sector = sector ∧ x.busy = true ∧ ((x.valid = false ∧ x.dirty = false ∧
          (s.cache.buf b).dirty = false ∧
          ∀ b', (s.cache.buf b').dev = dev → (s.cache.buf b').sector ≠ sector) ∨
        ((s.cache.buf b).dev = dev ∧ (s.cache.buf b).sector = sector ∧
          x.valid = (s.cache.buf b).valid ∧ x.dirty = (s.cache.buf b).dirty ∧
          x.data = (s.cache.buf b).data)) := by
    rcases hcase with ⟨h1, h2, -, h4⟩ | ⟨h1, -, h3, h4⟩
    · exact ⟨_, h4, h1, h2, rfl, Or.inr ⟨h1, h2, rfl, rfl, rfl⟩⟩
    · exact ⟨_, h4, rfl, rfl, rfl, Or.inl ⟨rfl, rfl, h3, h1⟩⟩
  subst hx
  constructor
  · exact h.listed
  · intro b₁ b₂ hne hdev hsec
    by_cases h1 : b₁ = b
    · by_cases h2 : b₂ = b
      · rw [h1, h2]
      · subst h1
        simp only [Bcache.setBuf_same, Bcache.setBuf_of_ne h2] at hne hdev hsec
        rw [hxdev] at hne hdev
        rw [hxsec] at hsec
        rcases hxv with hr | hr
        · exact absurd hsec (hr.2.2.2 b₂ hdev)
        · exact h.unique b₁ b₂ (by rw [hr.1]; exact hne) (by rw [hr.1]; exact hdev)
            (by rw [hr.2.1]; exact hsec)
    · by_cases h2 : b₂ = b
      · subst h2
        simp only [Bcache.setBuf_same, Bcache.setBuf_of_ne h1] at hne hdev hsec
        rw [hxdev] at hdev
        rw [hxsec] at hsec
        rcases hxv with hr | hr
        · exact absurd hsec.symm (hr.2.2.2 b₁ hdev.symm)
        · exact h.unique b₁ b₂ hne (by rw [hr.1]; exact hdev) (by rw [hr.2.1]; exact hsec)
      · simp only [Bcache.setBuf_of_ne h1, Bcache.setBuf_of_ne h2] at hne hdev hsec
        exact h.unique b₁ b₂ hne hdev hsec
  · intro q dev' sector' b' hq
    by_cases hqp : q = p
    · subst hqp
      simp only [BioState.setPc, Function.update_self, BioPc.fills, Option.some.injEq,
        Prod.mk.injEq] at hq
      obtain ⟨rfl, rfl, rfl⟩ := hq
      exact ⟨by simp, by rw [Bcache.setBuf_same, hxdev], by rw [Bcache.setBuf_same, hxsec], hsaved⟩
    · simp only [BioState.setPc, Function.update_of_ne hqp] at hq
      have hold := h.filling q dev' sector' b' hq
      have hb : b' ≠ b := by
        rintro rfl
        simp [hnone] at hold
      simp only [Function.update_of_ne hb, Bcache.setBuf_of_ne hb]
      exact hold
  · intro b'
    by_cases hb : b' = b
    · subst hb
      constructor
      · simp [Bcache.setBuf_same, hxbusy]
      · intro q hq
        simp only [Function.update_self, Option.some.injEq] at hq
        subst hq
        exact Or.inr ⟨dev, sector, by simp [BioState.setPc, BioPc.fills]⟩
      · intro hv
        rw [Bcache.setBuf_same] at hv ⊢
        rcases hxv with hr | hr
        · simp [hr.1] at hv
        · rw [hr.2.2.1] at hv
          rw [hxdev, ← hr.1]
          exact (h.buf b').valid hv
      · intro hd
        rw [Bcache.setBuf_same] at hd ⊢
        rcases hxv with hr | hr
        · simp [hr.2.1] at hd
        · rw [hr.2.2.2.1] at hd
          rw [hr.2.2.1]
          exact (h.buf b').dirty hd
      · intro hu
        simp only [BioState.setPc, hsaved, Bool.false_eq_true] at hu
      · intro hv hu
        rw [Bcache.setBuf_same] at hv ⊢
        rcases hxv with hr | hr
        · simp [hr.1] at hv
        · rw [hr.2.2.2.2, hxsec, ← hr.2.1]
          rw [hr.2.2.1] at hv
          exact (h.buf b').data hv hu
    · refine (h.buf b').congr (Bcache.setBuf_of_ne hb _ _) (Function.update_of_ne hb _ _) rfl ?_ ?_
      · intro q hq
        by_cases hqp : q = p
        · exact Or.inl (h.valid_of_owner (hqp ▸ hq) hf)
        · exact Or.inr (by simp [BioState.setPc, Function.update_of_ne hqp])
      · exact fun _ => rfl
  · intro y
    rcases h.disk y with hy | ⟨b', hdev, hsec, hd⟩
    · exact Or.inl hy
    · refine Or.inr ⟨b', ?_⟩
      by_cases hb : b' = b
      · subst hb
        rw [Bcache.setBuf_same]
        rcases hxv with hr | hr
        · simp [hr.2.2.1] at hd
        · exact ⟨by rw [hxdev, ← hr.1, hdev], by rw [hxsec, ← hr.2.1, hsec],
            by rw [hr.2.2.2.1, hd]⟩
      · rw [Bcache.setBuf_of_ne hb]
        exact ⟨hdev, hsec, hd⟩

omit [DecidableEq P] in
theorem fills_resume (s : BioState P) (k : Caller) (b : BufId) : (s.resume k b).fills = none := by
  cases k with
  | second ph => cases ph <;> rfl
  | _ => rfl

theorem fill (h : BioInv d s) {p : P} {k : Caller} {dev sector : ℕ} {b : BufId}
    (hp : s.pc p = .filling k dev sector b) :
    BioInv d (s.fill p k b) := by
  have hfp : (s.pc p).fills = some (dev, sector, b) := by rw [hp]; rfl
  obtain ⟨hown, hdev, hsec, hsaved⟩ := h.filling p dev sector b hfp
  unfold BioState.fill BioState.onCache
  split
  · next c hc =>
    have hpc : ∀ q dev' sector' b', ((({ s with cache := c } : BioState P).setPc p
        (({ s with cache := c } : BioState P).resume k b)).pc q).fills = some (dev', sector', b') →
        (s.pc q).fills = some (dev', sector', b') ∧ b' ≠ b := by
      intro q dev' sector' b' hq
      by_cases hqp : q = p
      · subst hqp
        simp [BioState.setPc, fills_resume] at hq
      · simp only [BioState.setPc, Function.update_of_ne hqp] at hq
        refine ⟨hq, ?_⟩
        rintro rfl
        have ho := (h.filling q dev' sector' b' hq).1
        rw [hown] at ho
        exact hqp (Option.some.inj ho).symm
    have hpc' : ∀ q b', s.owner b' = some q → b' ≠ b →
        ((({ s with cache := c } : BioState P).setPc p
          (({ s with cache := c } : BioState P).resume k b)).pc q).fills = (s.pc q).fills ∨
        (s.cache.buf b').valid = true := by
      intro q b' hq hb'
      by_cases hqp : q = p
      · subst hqp
        rcases (h.buf b').owned q hq with hv | ⟨dev', sector', hf⟩
        · exact Or.inr hv
        · rw [hfp] at hf
          simp only [Option.some.injEq, Prod.mk.injEq] at hf
          exact absurd hf.2.2.symm hb'
      · exact Or.inl (by simp [BioState.setPc, Function.update_of_ne hqp])
    rcases Bcache.fill_ok (h.buf b).dirty hc with ⟨hv, rfl⟩ | ⟨-, h1, hd, rfl⟩
    · have hroot := (h.buf b).valid hv
      refine h.change (b := b) (x := s.cache.buf b) (Function.update_eq_self b _).symm h.listed
        rfl rfl hroot (fun _ _ => rfl) (fun _ _ => rfl) (fun _ _ => rfl) (fun _ _ => rfl) hpc
          hpc' ?_ ?_
      · refine ⟨(h.buf b).busy, fun _ _ => Or.inl hv, (h.buf b).valid, (h.buf b).dirty,
          (h.buf b).unsaved, (h.buf b).data⟩
      · cases hd : (s.cache.buf b).dirty with
        | true => exact Or.inr rfl
        | false => exact Or.inl (h.disk_of_clean hroot hd)
    · refine h.change (b := b) rfl h.listed rfl rfl h1 (fun _ _ => rfl) (fun _ _ => rfl)
        (fun _ _ => rfl) (fun _ _ => rfl) hpc hpc' ?_ ?_
      · constructor <;> simp only [BioState.setPc, Bcache.setBuf_same]
        · exact (h.buf b).busy
        · exact fun _ _ => Or.inl trivial
        · exact fun _ => h1
        · exact fun _ => trivial
        · exact fun hu => ⟨trivial, ((h.buf b).unsaved hu).2⟩
        · exact fun _ _ => h.disk_of_clean h1 hd
      · exact Or.inl (h.disk_of_clean h1 hd)
  · exact h.raise _

theorem logAppend (h : BioInv d s) {p : P} {b : BufId} (hown : s.owner b = some p)
    (hp : (s.pc p).fills = none) : BioInv d (s.logAppend p b) := by
  have hv := h.valid_of_owner hown hp
  refine h.change_held hown hp rfl rfl rfl ⟨rfl, rfl, rfl, hv⟩ rfl ?_ ?_ (fun _ _ => rfl)
    (fills_setPc (by rw [hp]; rfl)) ?_ ?_
  · intro b' hb'
    exact Function.update_of_ne hb' _ _
  · intro y hy
    exact Function.update_of_ne hy _ _
  · intro _
    simp [BioState.logAppend, BioState.record, BioState.setPc]
  · exact Or.inr rfl

end BioInv

end Xv6
