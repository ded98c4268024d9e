import Xv6.Bio.Invariant
import Xv6.Lib.Prog
import Mathlib.Data.List.GetD

/-! `commit` on the buffer cache, one call after the other: the buffers it finds, holds and
recycles while the blocks of the transaction are pinned. -/
namespace Xv6

structure LogCache where
  cache : Bcache
  lh : List ℕ

namespace LogCache
open Prog

abbrev CacheM := Prog String LogCache

def onCache (f : Bcache → Except String Bcache) : CacheM Unit := fun s =>
  match f s.cache with
  | .ok c => .ok () { s with cache := c }
  | .error msg => .stop msg

/-- `bget`; a process that has to wait for a buffer stops. -/
def bget (sector : ℕ) : CacheM BufId := fun s =>
  match s.cache.bget ROOTDEV sector with
  | .got c b => .ok b { s with cache := c }
  | .sleep _ => .stop "sleep"
  | .panic msg => .stop msg

def bread (sector : ℕ) : CacheM BufId := do
  let b ← bget sector
  onCache fun c => c.fill b
  return b

def bwrite (b : BufId) : CacheM Unit := onCache fun c => c.bwrite b

def brelse (b : BufId) : CacheM Unit := onCache fun c => c.brelse b

def setData (b : BufId) (f : LogCache → Block) : CacheM Unit :=
  Prog.modify fun s => { s with cache := s.cache.setData b (f s) }

/-- The end of a pass of the copying loops: `memmove`, `bwrite` and the two calls of `brelse`. -/
def copyBlock (dst src : BufId) : CacheM Unit := do
  setData dst fun s => (s.cache.buf src).data
  bwrite dst
  brelse src
  brelse dst

def writeLog (log : LogArea) : CacheM Unit := do
  let s ← Prog.get
  (List.range s.lh.length).forM fun tail => do
    let dst ← bread (log.start + tail + 1)
    let src ← bread (s.lh.getD tail 0)
    copyBlock dst src

def installTrans (log : LogArea) : CacheM Unit := do
  let s ← Prog.get
  (List.range s.lh.length).forM fun tail => do
    let lbuf ← bread (log.start + tail + 1)
    let dbuf ← bread (s.lh.getD tail 0)
    copyBlock dbuf lbuf

def writeHead (log : LogArea) : CacheM Unit := do
  let buf ← bread log.start
  setData buf fun s => putHead (s.cache.buf buf).data s.lh
  bwrite buf
  brelse buf

def commit (log : LogArea) : CacheM Unit := do
  let s ← Prog.get
  if 0 < s.lh.length then do
    writeLog log
    writeHead log
    installTrans log
    Prog.modify fun s => { s with lh := [] }
    writeHead log
  else return ()

end LogCache

namespace Bcache

variable {c c' : Bcache} {b b' : BufId} {x y : ℕ} {v : Block}

def Tagged (c : Bcache) (b : BufId) (x : ℕ) : Prop :=
  (c.buf b).dev = ROOTDEV ∧ (c.buf b).sector = x

/-- All buffers are in the list, and no two stand for one sector. -/
structure Sound (c : Bcache) : Prop where
  listed : ∃ l, c.Listed l
  unique : ∀ x b b', c.Tagged b x → c.Tagged b' x → b' = b

/-- The sector reads as `v`, whatever is recycled: a pinned buffer has it, or the disk. -/
structure Stores (c : Bcache) (x : ℕ) (v : Block) : Prop where
  data : ∀ b, c.Tagged b x → (c.buf b).valid = true ∨ (c.buf b).dirty = true → (c.buf b).data = v
  disk : (∀ b, c.Tagged b x → (c.buf b).dirty = false) → c.disk x = v

theorem Tagged.sector_eq (h : c.Tagged b x) (h' : c.Tagged b y) : x = y := h.2.symm.trans h'.2

theorem Tagged.of_same (h : c'.buf b = c.buf b) : c'.Tagged b x ↔ c.Tagged b x := by
  rw [Tagged, Tagged, h]

def Cleaned (c c' : Bcache) : Prop :=
  ∀ b, (c'.buf b).dirty = true →
    (c.buf b).dirty = true ∧ (c'.buf b).dev = (c.buf b).dev ∧ (c'.buf b).sector = (c.buf b).sector

theorem Cleaned.trans {c'' : Bcache} (h : c.Cleaned c') (h' : c'.Cleaned c'') : c.Cleaned c'' := by
  intro b hb
  obtain ⟨hb', hdev', hsector'⟩ := h' b hb
  obtain ⟨hb, hdev, hsector⟩ := h b hb'
  exact ⟨hb, hdev'.trans hdev, hsector'.trans hsector⟩

def Clean (c : Bcache) (x : ℕ) : Prop := ∀ b, c.Tagged b x → (c.buf b).dirty = false

theorem Clean.mono (h : c.Clean x) (hc : c.Cleaned c') : c'.Clean x := by
  intro b hb
  by_contra hd
  rw [Bool.not_eq_false] at hd
  obtain ⟨hd', hdev, hsector⟩ := hc b hd
  rw [Tagged, hdev, hsector] at hb
  rw [h b hb] at hd'
  cases hd'

/-- What `bread` has done when it returns `b`. -/
structure Read (c : Bcache) (x : ℕ) (b : BufId) (c' : Bcache) : Prop where
  sound : c'.Sound
  size : c'.disksize = c.disksize
  tagged : c'.Tagged b x
  busy : (c'.buf b).busy = true
  idle : (c.buf b).busy = false
  dirty : c.Cleaned c'
  same : ∀ b', b' ≠ b → c'.buf b' = c.buf b'
  stores : ∀ y v, c.Stores y v → c'.Stores y v
  data : ∀ v, c.Stores x v → (c'.buf b).data = v

theorem exists_bget (h : c.Sound) (hidle : ∀ b, c.Tagged b x → (c.buf b).busy = false)
    (hroom : (∃ b, c.Tagged b x) ∨ ∃ b, (c.buf b).busy = false ∧ (c.buf b).dirty = false) :
    ∃ c' b, c.bget ROOTDEV x = .got c' b := by
  obtain ⟨l, hl⟩ := h.listed
  unfold bget
  cases hs : c.scanNext fun y => y.dev == ROOTDEV && y.sector == x with
  | some b =>
    rw [hl.scanNext] at hs
    have hb := List.find?_some hs
    simp only [Bool.and_eq_true, beq_iff_eq] at hb
    dsimp only
    rw [if_neg (by rw [hidle b hb]; exact Bool.false_ne_true)]
    exact ⟨_, _, rfl⟩
  | none =>
    rw [hl.scanNext, List.find?_eq_none] at hs
    obtain ⟨b, hb⟩ | ⟨b, hbusy, hdirty⟩ := hroom
    · exact absurd (by simp [hb.1, hb.2]) (hs b (hl.2 b))
    · cases hp : c.scanPrev fun y => !y.busy && !y.dirty with
      | some b' => exact ⟨_, _, rfl⟩
      | none =>
        rw [hl.scanPrev, List.find?_eq_none] at hp
        exact absurd (by simp [hbusy, hdirty]) (hp b (List.mem_reverse.mpr (hl.2 b)))

theorem read_of_setBuf {z : Buf} {d : Disk} (h : c.Sound) (hdev : z.dev = ROOTDEV)
    (hsector : z.sector = x) (hbusy : z.busy = true) (hidle : (c.buf b).busy = false)
    (htag : c.Tagged b x ∨ (∀ b', ¬c.Tagged b' x) ∧ (c.buf b).dirty = false)
    (hdirty : z.dirty = true → c.Tagged b x ∧ (c.buf b).dirty = true)
    (hd : ∀ y, y ≠ x → d y = c.disk y)
    (hdata : ∀ v, c.Stores x v → z.data = v ∧ (z.dirty = false → d x = v)) :
    c.Read x b { c.setBuf b z with disk := d } := by
  obtain ⟨c', hc'⟩ : ∃ c', c' = { c.setBuf b z with disk := d } := ⟨_, rfl⟩
  have hself : c'.buf b = z := by rw [hc']; exact setBuf_same c b z
  have hother : ∀ b', b' ≠ b → c'.buf b' = c.buf b' := fun b' hne => by
    rw [hc']
    exact setBuf_of_ne hne c z
  have hdisk : c'.disk = d := by rw [hc']
  have htagged : c'.Tagged b x := by rw [Tagged, hself]; exact ⟨hdev, hsector⟩
  have honly : ∀ b', c'.Tagged b' x → b' = b := by
    intro b' hb'
    by_contra hne
    rw [Tagged.of_same (hother b' hne)] at hb'
    rcases htag with hb | hb
    · exact hne (h.unique x b b' hb hb')
    · exact hb.1 b' hb'
  have hne : ∀ y b', y ≠ x → c'.Tagged b' y → b' ≠ b := by
    rintro y b' hy hb' rfl
    exact hy (hb'.sector_eq htagged)
  rw [← hc']
  refine ⟨⟨?_, ?_⟩, by rw [hc']; rfl, htagged, by rw [hself, hbusy], hidle, ?_, hother, ?_,
    fun v hv => by rw [hself]; exact (hdata v hv).1⟩
  · obtain ⟨l, hl⟩ := h.listed
    exact ⟨l, by rw [hc']; exact hl⟩
  · intro y b₁ b₂ h₁ h₂
    by_cases hy : y = x
    · rw [hy] at h₁ h₂
      rw [honly b₁ h₁, honly b₂ h₂]
    · rw [Tagged.of_same (hother _ (hne y _ hy h₁))] at h₁
      rw [Tagged.of_same (hother _ (hne y _ hy h₂))] at h₂
      exact h.unique y b₁ b₂ h₁ h₂
  · intro b' hb'
    by_cases hbb : b' = b
    · rw [hbb, hself] at hb' ⊢
      obtain ⟨⟨hdev', hsector'⟩, hold⟩ := hdirty hb'
      exact ⟨hold, hdev.trans hdev'.symm, hsector.trans hsector'.symm⟩
    · rw [hother b' hbb] at hb' ⊢
      exact ⟨hb', rfl, rfl⟩
  · intro y v hv
    by_cases hy : y = x
    · rw [hy] at hv ⊢
      refine ⟨fun b' hb' _ => ?_, fun hclean => ?_⟩
      · rw [honly b' hb', hself]
        exact (hdata v hv).1
      · have hz := hclean b htagged
        rw [hself] at hz
        rw [hdisk]
        exact (hdata v hv).2 hz
    · refine ⟨fun b' hb' hset => ?_, fun hclean => ?_⟩
      · have hsame := hother b' (hne y b' hy hb')
        rw [Tagged.of_same hsame] at hb'
        rw [hsame] at hset ⊢
        exact hv.data b' hb' hset
      · rw [hdisk, hd y hy]
        refine hv.disk fun b' hb' => ?_
        by_cases hbb : b' = b
        · rw [hbb] at hb' ⊢
          rcases htag with hb | hb
          · exact absurd (hb'.sector_eq hb) hy
          · exact hb.2
        · have hcl := hclean b' ((Tagged.of_same (hother b' hbb)).mpr hb')
          rwa [hother b' hbb] at hcl

theorem fill_eq (hbusy : (c.buf b).busy = true) (hdev : (c.buf b).dev = ROOTDEV)
    (hlt : (c.buf b).sector < c.disksize) :
    c.fill b = .ok (if (c.buf b).valid then c
      else if (c.buf b).dirty then
        { c.setBuf b { c.buf b with dirty := false, valid := true } with
          disk := Function.update c.disk (c.buf b).sector (c.buf b).data }
      else c.setBuf b { c.buf b with data := c.disk (c.buf b).sector, valid := true }) := by
  have hdev' : ¬(c.buf b).dev ≠ 1 := not_not.mpr hdev
  unfold fill iderw
  cases hv : (c.buf b).valid with
  | true => rfl
  | false =>
    dsimp only
    rw [if_neg Bool.false_ne_true, if_neg (not_not.mpr hbusy), if_neg (by simp [hv]), if_neg hdev',
      if_neg hlt.not_ge, if_neg Bool.false_ne_true]
    cases hd : (c.buf b).dirty <;> rfl

theorem setBuf_setBuf (c : Bcache) (b : BufId) (z z' : Buf) :
    (c.setBuf b z).setBuf b z' = c.setBuf b z' := by
  unfold setBuf
  rw [Function.update_idem]

theorem exists_read (h : c.Sound) (hx : x < c.disksize)
    (hidle : ∀ b, c.Tagged b x → (c.buf b).busy = false)
    (hroom : (∃ b, c.Tagged b x) ∨ ∃ b, (c.buf b).busy = false ∧ (c.buf b).dirty = false) :
    ∃ c₁ b c', c.bget ROOTDEV x = .got c₁ b ∧ c₁.fill b = .ok c' ∧ c.Read x b c' := by
  obtain ⟨c₁, b, hget⟩ := exists_bget h hidle hroom
  obtain ⟨l, hl⟩ := h.listed
  rcases bget_got hl hget with ⟨hdev, hsector, hbusy, rfl⟩ | ⟨hno, hbusy, hdirty, rfl⟩
  · have htag : c.Tagged b x := ⟨hdev, hsector⟩
    have hfill := fill_eq (c := c.setBuf b { c.buf b with busy := true }) (b := b)
      (by rw [setBuf_same]) (by rw [setBuf_same]; exact hdev)
      (by rw [setBuf_same, hsector]; exact hx)
    rw [setBuf_same, setBuf_setBuf, setBuf_setBuf] at hfill
    refine ⟨_, b, _, hget, hfill, ?_⟩
    dsimp only
    rw [hsector]
    cases hv : (c.buf b).valid with
    | true =>
      rw [if_pos rfl]
      refine read_of_setBuf h hdev rfl rfl hbusy (Or.inl htag) (fun hd => ⟨htag, hd⟩)
        (fun _ _ => rfl) fun v hv' => ⟨hv'.data b htag (Or.inl hv), fun hd => ?_⟩
      exact hv'.disk fun b' hb' => by rwa [h.unique x b b' htag hb']
    | false =>
      rw [if_neg Bool.false_ne_true]
      cases hd : (c.buf b).dirty with
      | true =>
        rw [if_pos rfl]
        refine read_of_setBuf h hdev rfl rfl hbusy (Or.inl htag) (fun hd => by cases hd)
          (fun y hy => Function.update_of_ne hy _ _) fun v hv' => ?_
        have hdata := hv'.data b htag (Or.inr hd)
        exact ⟨hdata, fun _ => by rw [← hdata]; exact Function.update_self ..⟩
      | false =>
        rw [if_neg Bool.false_ne_true]
        refine read_of_setBuf h hdev rfl rfl hbusy (Or.inl htag) (fun hd' => by cases hd')
          (fun _ _ => rfl) fun v hv' => ?_
        have hdisk := hv'.disk fun b' hb' => by rwa [h.unique x b b' htag hb']
        exact ⟨hdisk, fun _ => hdisk⟩
  · have hfill := fill_eq (b := b)
      (c := c.setBuf b ⟨ROOTDEV, x, true, false, false, (c.buf b).data⟩) (by rw [setBuf_same])
      (by rw [setBuf_same]) (by rw [setBuf_same]; exact hx)
    rw [setBuf_same, setBuf_setBuf, setBuf_setBuf] at hfill
    have hnone : ∀ b', ¬c.Tagged b' x := fun b' hb' => hno b' hb'.1 hb'.2
    refine ⟨_, b, _, hget, hfill, ?_⟩
    rw [if_neg Bool.false_ne_true, if_neg Bool.false_ne_true]
    refine read_of_setBuf (z := ⟨ROOTDEV, x, true, true, false, c.disk x⟩) h rfl rfl rfl hbusy
      (Or.inr ⟨hnone, hdirty⟩) (fun hd => by cases hd) (fun _ _ => rfl) fun v hv => ?_
    have hdisk := hv.disk fun b' hb' => absurd hb' (hnone b')
    exact ⟨hdisk, fun _ => hdisk⟩

/-- The sector has been written with `v` from the buffer `b`, and no other buffer is busy. -/
structure Written (c : Bcache) (b : BufId) (x : ℕ) (v : Block) (c' : Bcache) : Prop where
  sound : c'.Sound
  size : c'.disksize = c.disksize
  self : c'.buf b = ⟨ROOTDEV, x, false, true, false, v⟩
  other : ∀ b', b' ≠ b → c'.buf b' = { c.buf b' with busy := false }
  disk : c'.disk = Function.update c.disk x v

theorem Written.tagged (h : c.Written b x v c') : c'.Tagged b x := by
  rw [Tagged, h.self]
  exact ⟨rfl, rfl⟩

theorem Written.stores_self (h : c.Written b x v c') : c'.Stores x v := by
  refine ⟨fun b' hb' _ => ?_, fun _ => by rw [h.disk, Function.update_self]⟩
  rw [h.sound.unique x b b' h.tagged hb', h.self]

theorem Written.clean (h : c.Written b x v c') : c'.Clean x := by
  intro b' hb'
  rw [h.sound.unique x b b' h.tagged hb', h.self]

theorem Written.cleaned (h : c.Written b x v c') : c.Cleaned c' := by
  intro b' hb'
  by_cases hbb : b' = b
  · rw [hbb, h.self] at hb'
    cases hb'
  · rw [h.other b' hbb] at hb' ⊢
    exact ⟨hb', rfl, rfl⟩

theorem Written.idle (h : c.Written b x v c') (b' : BufId) : (c'.buf b').busy = false := by
  by_cases hbb : b' = b
  · rw [hbb, h.self]
  · rw [h.other b' hbb]

theorem Written.stores_of_ne (h : c.Written b x v c') (hb : c.Tagged b x) (hy : y ≠ x) {w : Block}
    (hw : c.Stores y w) : c'.Stores y w := by
  have hne : ∀ b', c'.Tagged b' y → b' ≠ b := by
    rintro b' hb' rfl
    exact hy (hb'.sector_eq h.tagged)
  have hsame : ∀ b', b' ≠ b → (c'.Tagged b' y ↔ c.Tagged b' y) := by
    intro b' hbb
    rw [Tagged, Tagged, h.other b' hbb]
  refine ⟨fun b' hb' hset => ?_, fun hclean => ?_⟩
  · have hbb := hne b' hb'
    rw [h.other b' hbb] at hset ⊢
    exact hw.data b' ((hsame b' hbb).mp hb') hset
  · rw [h.disk, Function.update_of_ne hy]
    refine hw.disk fun b' hb' => ?_
    have hbb : b' ≠ b := by
      rintro rfl
      exact hy (hb'.sector_eq hb)
    have hcl := hclean b' ((hsame b' hbb).mpr hb')
    rwa [h.other b' hbb] at hcl

theorem Sound.congr (h : c.Sound) (hlist : ∃ l, c'.Listed l)
    (htag : ∀ b, (c'.buf b).dev = (c.buf b).dev ∧ (c'.buf b).sector = (c.buf b).sector) :
    c'.Sound := by
  refine ⟨hlist, fun y b₁ b₂ h₁ h₂ => h.unique y b₁ b₂ ?_ ?_⟩
  · rwa [Tagged, (htag b₁).1, (htag b₁).2] at h₁
  · rwa [Tagged, (htag b₂).1, (htag b₂).2] at h₂

theorem setBuf_tags {z : Buf} (hdev : z.dev = (c.buf b).dev) (hsector : z.sector = (c.buf b).sector)
    (b' : BufId) : ((c.setBuf b z).buf b').dev = (c.buf b').dev ∧
      ((c.setBuf b z).buf b').sector = (c.buf b').sector := by
  by_cases hbb : b' = b
  · rw [hbb, setBuf_same]
    exact ⟨hdev, hsector⟩
  · rw [setBuf_of_ne hbb]
    exact ⟨rfl, rfl⟩

theorem exists_brelse (h : c.Sound) (hbusy : (c.buf b).busy = true) :
    ∃ c', c.brelse b = .ok c' ∧ c'.Sound ∧ c'.disk = c.disk ∧ c'.disksize = c.disksize ∧
      c'.buf b = { c.buf b with busy := false } ∧ ∀ b', b' ≠ b → c'.buf b' = c.buf b' := by
  obtain ⟨l, hl⟩ := h.listed
  have hok : c.brelse b = .ok _ := if_neg (not_not.mpr hbusy)
  refine ⟨_, hok, h.congr ⟨_, brelse_ring hl hok⟩ (setBuf_tags rfl rfl), rfl, rfl,
    setBuf_same c b _, fun b' hbb => setBuf_of_ne hbb c _⟩

theorem exists_write (h : c.Sound) (hbusy : (c.buf b).busy = true) (htag : c.Tagged b x)
    (hlt : x < c.disksize) (v : Block) :
    ∃ c', (c.setData b v).bwrite b = .ok c' ∧ c'.Sound ∧ c'.disk = Function.update c.disk x v ∧
      c'.disksize = c.disksize ∧ c'.buf b = ⟨ROOTDEV, x, true, true, false, v⟩ ∧
      ∀ b', b' ≠ b → c'.buf b' = c.buf b' := by
  have hdev : ¬(c.buf b).dev ≠ 1 := not_not.mpr htag.1
  have hok : (c.setData b v).bwrite b =
      .ok { c.setBuf b ⟨ROOTDEV, x, true, true, false, v⟩ with
        disk := Function.update c.disk x v } := by
    unfold setData bwrite iderw
    simp only [setBuf_same, setBuf_setBuf]
    rw [if_neg (not_not.mpr hbusy), if_neg (not_not.mpr hbusy), if_neg (by simp), if_neg hdev,
      if_neg (by rw [htag.2]; exact hlt.not_ge), if_pos trivial, htag.1, htag.2, hbusy]
    rfl
  exact ⟨_, hok, h.congr h.listed (setBuf_tags htag.1.symm htag.2.symm), rfl, rfl,
    setBuf_same c b _, fun b' hbb => setBuf_of_ne hbb c _⟩

/-- Between two passes: no buffer is busy, and only blocks of the transaction are dirty. -/
structure Ready (log : LogArea) (lh : List ℕ) (c : Bcache) : Prop where
  sound : c.Sound
  idle : ∀ b, (c.buf b).busy = false
  pinned : ∀ b, (c.buf b).dirty = true → ∃ x ∈ lh, c.Tagged b x
  home : ∀ x ∈ lh, x < c.disksize ∧ ¬log.Mem x
  area : log.start + log.size ≤ c.disksize

theorem NBUF_le_of_injective {f : BufId → ℕ} {lh : List ℕ} (hf : Function.Injective f)
    (hmem : ∀ b, f b ∈ lh) : NBUF ≤ lh.length := by
  have hnd : ((List.finRange NBUF).map f).Nodup := (List.nodup_finRange NBUF).map hf
  have hsub : (List.finRange NBUF).map f ⊆ lh := by
    intro y hy
    obtain ⟨b, -, rfl⟩ := List.mem_map.mp hy
    exact hmem b
  have hle := (List.subperm_of_subset hnd hsub).length_le
  rwa [List.length_map, List.length_finRange] at hle

section room

variable {lh : List ℕ}

theorem exists_clean (h : c.Sound) (hpin : ∀ b, (c.buf b).dirty = true → ∃ x ∈ lh, c.Tagged b x)
    (hlen : lh.length < NBUF) : ∃ b, (c.buf b).dirty = false := by
  by_contra hall
  push Not at hall
  have hdirty : ∀ b, ∃ x ∈ lh, c.Tagged b x :=
    fun b => hpin b (Bool.eq_true_of_not_eq_false (hall b))
  refine hlen.not_ge (NBUF_le_of_injective (f := fun b => (c.buf b).sector) ?_ fun b => ?_)
  · intro b b' hbb
    obtain ⟨x, -, hx⟩ := hdirty b
    obtain ⟨y, -, hy⟩ := hdirty b'
    have hxy : x = y := hx.2.symm.trans (hbb.trans hy.2)
    exact (h.unique x b b' hx (hxy ▸ hy)).symm
  · obtain ⟨x, hx, hbx⟩ := hdirty b
    rw [hbx.2]
    exact hx

theorem exists_clean_ne (h : c.Sound)
    (hpin : ∀ b, (c.buf b).dirty = true → ∃ x ∈ lh, c.Tagged b x) (hlen : lh.length < NBUF)
    (hx : x ∈ lh) (hno : ∀ b, ¬c.Tagged b x) (b₁ : BufId) :
    ∃ b, b ≠ b₁ ∧ (c.buf b).dirty = false := by
  by_contra hall
  push Not at hall
  have hdirty : ∀ b, b ≠ b₁ → ∃ x ∈ lh, c.Tagged b x :=
    fun b hb => hpin b (Bool.eq_true_of_not_eq_false (hall b hb))
  have hsector : ∀ b, b ≠ b₁ → (c.buf b).sector ≠ x := by
    rintro b hb rfl
    obtain ⟨y, -, hy⟩ := hdirty b hb
    exact hno b ⟨hy.1, rfl⟩
  refine hlen.not_ge (NBUF_le_of_injective
    (f := fun b => if b = b₁ then x else (c.buf b).sector) ?_ fun b => ?_)
  · intro b b' hbb
    by_cases hb : b = b₁
    · by_cases hb' : b' = b₁
      · rw [hb, hb']
      · simp only [if_pos hb, if_neg hb'] at hbb
        exact absurd hbb.symm (hsector b' hb')
    · by_cases hb' : b' = b₁
      · simp only [if_neg hb, if_pos hb'] at hbb
        exact absurd hbb (hsector b hb)
      · simp only [if_neg hb, if_neg hb'] at hbb
        obtain ⟨y, -, hy⟩ := hdirty b hb
        obtain ⟨z, -, hz⟩ := hdirty b' hb'
        have hyz : y = z := hy.2.symm.trans (hbb.trans hz.2)
        exact (h.unique y b b' hy (hyz ▸ hz)).symm
  · by_cases hb : b = b₁
    · rwa [if_pos hb]
    · obtain ⟨y, hy, hby⟩ := hdirty b hb
      rw [if_neg hb, hby.2]
      exact hy

end room

end Bcache

namespace LogCache
open Prog Bcache

variable {s : LogCache} {dst src b : BufId} {x : ℕ}

theorem wp_onCache {f : Bcache → Except String Bcache} {c : Bcache} {Q : Unit → LogCache → Prop}
    {E : String → Prop} (h : f s.cache = .ok c) :
    wp (onCache f) s Q E ↔ Q () { s with cache := c } := by
  refine wp_of_eq ?_
  unfold onCache
  rw [h]

theorem wp_setData {f : LogCache → Block} {Q : Unit → LogCache → Prop} {E : String → Prop} :
    wp (setData b f) s Q E ↔ Q () { s with cache := s.cache.setData b (f s) } :=
  wp_modify

theorem bread_spec (h : s.cache.Sound) (hx : x < s.cache.disksize)
    (hidle : ∀ b, s.cache.Tagged b x → (s.cache.buf b).busy = false)
    (hroom : (∃ b, s.cache.Tagged b x) ∨
      ∃ b, (s.cache.buf b).busy = false ∧ (s.cache.buf b).dirty = false) :
    wp (bread x) s (fun b t => s.cache.Read x b t.cache ∧ t.lh = s.lh) (fun _ => False) := by
  obtain ⟨c₁, b, c', hget, hfill, hread⟩ := exists_read h hx hidle hroom
  have hb : bget x s = .ok b { s with cache := c₁ } := by
    unfold bget
    rw [hget]
  rw [bread, wp_bind, wp_of_eq hb, wp_bind, wp_onCache hfill, wp_pure]
  exact ⟨hread, rfl⟩

theorem copyBlock_spec (h : s.cache.Sound) (hdst : (s.cache.buf dst).busy = true)
    (hsrc : (s.cache.buf src).busy = true) (hne : src ≠ dst)
    (hidle : ∀ b, b ≠ dst → b ≠ src → (s.cache.buf b).busy = false) (htag : s.cache.Tagged dst x)
    (hlt : x < s.cache.disksize) :
    wp (copyBlock dst src) s
      (fun _ t => s.cache.Written dst x (s.cache.buf src).data t.cache ∧ t.lh = s.lh)
      (fun _ => False) := by
  obtain ⟨c₁, hok₁, h₁, hdisk₁, hsize₁, hself₁, hother₁⟩ :=
    exists_write h hdst htag hlt (s.cache.buf src).data
  obtain ⟨c₂, hok₂, h₂, hdisk₂, hsize₂, hself₂, hother₂⟩ :=
    exists_brelse h₁ (b := src) (by rw [hother₁ src hne]; exact hsrc)
  obtain ⟨c₃, hok₃, h₃, hdisk₃, hsize₃, hself₃, hother₃⟩ :=
    exists_brelse h₂ (b := dst) (by rw [hother₂ dst hne.symm, hself₁])
  rw [copyBlock, wp_bind, wp_setData, wp_bind, bwrite, wp_onCache hok₁, wp_bind, brelse,
    wp_onCache hok₂, brelse, wp_onCache hok₃]
  refine ⟨⟨h₃, by rw [hsize₃, hsize₂, hsize₁], ?_, fun b hb => ?_, by rw [hdisk₃, hdisk₂, hdisk₁]⟩,
    rfl⟩
  · rw [hself₃, hother₂ dst hne.symm, hself₁]
  · rw [hother₃ b hb]
    by_cases hbs : b = src
    · rw [hbs, hself₂, hother₁ src hne]
    · rw [hother₂ b hbs, hother₁ b hb, ← hidle b hb hbs]

theorem putBlock_spec (h : s.cache.Sound) (hb : (s.cache.buf b).busy = true)
    (hidle : ∀ b', b' ≠ b → (s.cache.buf b').busy = false) (htag : s.cache.Tagged b x)
    (hlt : x < s.cache.disksize) (f : LogCache → Block) :
    wp (do setData b f; bwrite b; brelse b) s
      (fun _ t => s.cache.Written b x (f s) t.cache ∧ t.lh = s.lh) (fun _ => False) := by
  obtain ⟨c₁, hok₁, h₁, hdisk₁, hsize₁, hself₁, hother₁⟩ := exists_write h hb htag hlt (f s)
  obtain ⟨c₂, hok₂, h₂, hdisk₂, hsize₂, hself₂, hother₂⟩ :=
    exists_brelse h₁ (b := b) (by rw [hself₁])
  rw [wp_bind, wp_setData, wp_bind, bwrite, wp_onCache hok₁, brelse, wp_onCache hok₂]
  refine ⟨⟨h₂, by rw [hsize₂, hsize₁], by rw [hself₂, hself₁], fun b' hbb => ?_,
    by rw [hdisk₂, hdisk₁]⟩, rfl⟩
  rw [hother₂ b' hbb, hother₁ b' hbb, ← hidle b' hbb]

section pass

variable {log : LogArea} {lh : List ℕ} {c c' : Bcache} {y z : ℕ} {v : Block}

structure Paired (c : Bcache) (y z : ℕ) (b₁ b₂ : BufId) (c' : Bcache) : Prop where
  sound : c'.Sound
  size : c'.disksize = c.disksize
  dirty : c.Cleaned c'
  tag₁ : c'.Tagged b₁ y
  tag₂ : c'.Tagged b₂ z
  busy₁ : (c'.buf b₁).busy = true
  busy₂ : (c'.buf b₂).busy = true
  idle : ∀ b, b ≠ b₁ → b ≠ b₂ → (c'.buf b).busy = false
  stores : ∀ x v, c.Stores x v → c'.Stores x v
  data₁ : ∀ v, c.Stores y v → (c'.buf b₁).data = v
  data₂ : ∀ v, c.Stores z v → (c'.buf b₂).data = v

structure Passed (log : LogArea) (lh : List ℕ) (c : Bcache) (y z : ℕ) (c' : Bcache) : Prop where
  ready : c'.Ready log lh
  dirty : c.Cleaned c'
  clean : c'.Clean y
  stores : ∀ x v, x ≠ y → c.Stores x v → c'.Stores x v
  copied : ∀ v, c.Stores z v → c'.Stores y v

theorem pinned_of_cleaned (h : c.Ready log lh) (hc : c.Cleaned c') (b : BufId)
    (hb : (c'.buf b).dirty = true) : ∃ x ∈ lh, c'.Tagged b x := by
  obtain ⟨hold, hdev, hsector⟩ := hc b hb
  obtain ⟨x, hx, hbx⟩ := h.pinned b hold
  refine ⟨x, hx, ?_⟩
  rwa [Tagged, hdev, hsector]

theorem ready_of_cleaned (h : c.Ready log lh) (hc : c.Cleaned c') (hs : c'.Sound)
    (hidle : ∀ b, (c'.buf b).busy = false) (hsize : c'.disksize = c.disksize) :
    c'.Ready log lh := by
  exact ⟨hs, hidle, pinned_of_cleaned h hc, by rw [hsize]; exact h.home,
    by rw [hsize]; exact h.area⟩

theorem wp_paired {k : BufId → BufId → CacheM Unit} {Q : Unit → LogCache → Prop}
    (h : s.cache.Ready log s.lh) (hlen : s.lh.length < NBUF) (hy : log.Mem y) (hz : z ∈ s.lh)
    (hk : ∀ b₁ b₂ t, Paired s.cache y z b₁ b₂ t.cache → t.lh = s.lh →
      wp (k b₁ b₂) t Q fun _ => False) :
    wp (do let b₁ ← bread y; let b₂ ← bread z; k b₁ b₂) s Q (fun _ => False) := by
  have hyz : y ≠ z := by
    rintro rfl
    exact (h.home y hz).2 hy
  have hroom := exists_clean h.sound h.pinned hlen
  have hlt : y < s.cache.disksize := hy.2.trans_le h.area
  refine wp_seq (bread_spec h.sound hlt (fun b _ => h.idle b)
    (Or.inr (hroom.imp fun b hb => ⟨h.idle b, hb⟩))) ?_
  rintro b₁ t₁ ⟨hr₁, hlh₁⟩
  have hidle₁ : ∀ b, b ≠ b₁ → (t₁.cache.buf b).busy = false := fun b hb => by
    rw [hr₁.same b hb]
    exact h.idle b
  have htag : ∀ b, t₁.cache.Tagged b z → b ≠ b₁ := by
    rintro b hb rfl
    exact hyz (hr₁.tagged.sector_eq hb)
  have hroom₁ : (∃ b, t₁.cache.Tagged b z) ∨
      ∃ b, (t₁.cache.buf b).busy = false ∧ (t₁.cache.buf b).dirty = false := by
    by_cases hex : ∃ b, t₁.cache.Tagged b z
    · exact Or.inl hex
    · obtain ⟨b, hb, hclean⟩ := exists_clean_ne hr₁.sound (pinned_of_cleaned h hr₁.dirty) hlen hz
        (not_exists.mp hex) b₁
      exact Or.inr ⟨b, hidle₁ b hb, hclean⟩
  refine wp_seq (bread_spec hr₁.sound (by rw [hr₁.size]; exact (h.home z hz).1)
    (fun b hb => hidle₁ b (htag b hb)) hroom₁) ?_
  rintro b₂ t₂ ⟨hr₂, hlh₂⟩
  have hne : b₁ ≠ b₂ := by
    rintro rfl
    have hbusy := hr₂.idle
    rw [hr₁.busy] at hbusy
    cases hbusy
  refine hk b₁ b₂ t₂ ⟨hr₂.sound, hr₂.size.trans hr₁.size, hr₁.dirty.trans hr₂.dirty, ?_,
    hr₂.tagged, ?_, hr₂.busy, fun b hb₁ hb₂ => ?_, fun x v hv => ?_, fun v hv => ?_,
    fun v hv => ?_⟩ (hlh₂.trans hlh₁)
  · exact (Tagged.of_same (hr₂.same b₁ hne)).mpr hr₁.tagged
  · rw [hr₂.same b₁ hne]
    exact hr₁.busy
  · rw [hr₂.same b hb₂]
    exact hidle₁ b hb₁
  · exact hr₂.stores x v (hr₁.stores x v hv)
  · rw [hr₂.same b₁ hne]
    exact hr₁.data v hv
  · exact hr₂.data v (hr₁.stores z v hv)

theorem passed_of_written {c₁ : Bcache} {b : BufId} (h : c.Ready log lh) (hc : c.Cleaned c₁)
    (hsize : c₁.disksize = c.disksize) (hst : ∀ x v, c.Stores x v → c₁.Stores x v)
    (hdata : ∀ v', c.Stores z v' → v = v') (htag : c₁.Tagged b y) (hw : c₁.Written b y v c') :
    Passed log lh c y z c' := by
  have hcl := hc.trans hw.cleaned
  refine ⟨ready_of_cleaned h hcl hw.sound hw.idle (hw.size.trans hsize), hcl, hw.clean,
    fun x w hx hv => hw.stores_of_ne htag hx (hst x w hv), fun w hv => ?_⟩
  rw [← hdata w hv]
  exact hw.stores_self

theorem pass_log (h : s.cache.Ready log s.lh) (hlen : s.lh.length < NBUF) (hy : log.Mem y)
    (hz : z ∈ s.lh) :
    wp (do let dst ← bread y; let src ← bread z; copyBlock dst src) s
      (fun _ t => Passed log s.lh s.cache y z t.cache ∧ t.lh = s.lh) (fun _ => False) := by
  refine wp_paired h hlen hy hz fun b₁ b₂ t hp hlh => ?_
  have hne : b₂ ≠ b₁ := by
    rintro rfl
    exact (h.home z hz).2 (hp.tag₁.sector_eq hp.tag₂ ▸ hy)
  have hlt : y < t.cache.disksize := by
    rw [hp.size]
    exact hy.2.trans_le h.area
  refine wp_post (copyBlock_spec hp.sound hp.busy₁ hp.busy₂ hne hp.idle hp.tag₁ hlt) ?_
  rintro _ u ⟨hw, hlhu⟩
  exact ⟨passed_of_written h hp.dirty hp.size hp.stores hp.data₂ hp.tag₁ hw, hlhu.trans hlh⟩

theorem pass_install (h : s.cache.Ready log s.lh) (hlen : s.lh.length < NBUF) (hy : log.Mem y)
    (hz : z ∈ s.lh) :
    wp (do let lbuf ← bread y; let dbuf ← bread z; copyBlock dbuf lbuf) s
      (fun _ t => Passed log s.lh s.cache z y t.cache ∧ t.lh = s.lh) (fun _ => False) := by
  refine wp_paired h hlen hy hz fun b₁ b₂ t hp hlh => ?_
  have hne : b₁ ≠ b₂ := by
    rintro rfl
    exact (h.home z hz).2 (hp.tag₁.sector_eq hp.tag₂ ▸ hy)
  have hlt : z < t.cache.disksize := by
    rw [hp.size]
    exact (h.home z hz).1
  refine wp_post (copyBlock_spec hp.sound hp.busy₂ hp.busy₁ hne
    (fun b hb₂ hb₁ => hp.idle b hb₁ hb₂) hp.tag₂ hlt) ?_
  rintro _ u ⟨hw, hlhu⟩
  exact ⟨passed_of_written h hp.dirty hp.size hp.stores hp.data₁ hp.tag₂ hw, hlhu.trans hlh⟩

theorem writeHead_spec (h : s.cache.Ready log s.lh) (hlen : s.lh.length < NBUF)
    (hlog : 0 < log.size) :
    wp (writeHead log) s (fun _ t => t.cache.Ready log s.lh ∧ s.cache.Cleaned t.cache ∧
      (∀ x v, x ≠ log.start → s.cache.Stores x v → t.cache.Stores x v) ∧ t.lh = s.lh)
      (fun _ => False) := by
  have hroom := exists_clean h.sound h.pinned hlen
  have hlt : log.start < s.cache.disksize := by
    have harea := h.area
    omega
  unfold writeHead
  refine wp_seq (bread_spec h.sound hlt (fun b _ => h.idle b)
    (Or.inr (hroom.imp fun b hb => ⟨h.idle b, hb⟩))) ?_
  rintro b t ⟨hr, hlh⟩
  refine wp_post (putBlock_spec hr.sound hr.busy (fun b' hb' => ?_) hr.tagged
    (by rw [hr.size]; exact hlt) _) ?_
  · rw [hr.same b' hb']
    exact h.idle b'
  · rintro _ u ⟨hw, hlhu⟩
    have hcl := hr.dirty.trans hw.cleaned
    exact ⟨ready_of_cleaned h hcl hw.sound hw.idle (hw.size.trans hr.size), hcl,
      fun x v hx hv => hw.stores_of_ne hr.tagged hx (hr.stores x v hv), hlhu.trans hlh⟩

theorem range_split {n a : ℕ} {done rest : List ℕ} (h : List.range n = done ++ a :: rest) :
    a = done.length ∧ a < n := by
  have hget : (List.range n)[done.length]? = some a := by rw [h]; simp
  obtain ⟨hlt, heq⟩ := List.getElem?_eq_some_iff.mp hget
  rw [List.getElem_range] at heq
  rw [List.length_range] at hlt
  exact ⟨heq.symm, heq ▸ hlt⟩

/-- The transaction before it is installed: each block reads as `v`, and its first `k` blocks are
in the log. -/
structure Logged (log : LogArea) (lh : List ℕ) (v : ℕ → Block) (k : ℕ) (t : LogCache) : Prop where
  ready : t.cache.Ready log lh
  head : t.lh = lh
  home : ∀ x ∈ lh, t.cache.Stores x (v x)
  blocks : ∀ i < k, t.cache.Stores (log.start + i + 1) (v (lh.getD i 0))

theorem getD_mem {i : ℕ} (hi : i < lh.length) : lh.getD i 0 ∈ lh := by
  rw [List.getD_eq_getElem _ _ hi]
  exact List.getElem_mem hi

theorem writeLog_spec {w : ℕ → Block} (h : Logged log lh w 0 s) (hlen : lh.length < NBUF)
    (hlog : lh.length < log.size) :
    wp (writeLog log) s (fun _ t => Logged log lh w lh.length t) (fun _ => False) := by
  unfold writeLog
  rw [wp_bind, wp_get, h.head]
  refine wp_post (wp_forM (I := fun done t => Logged log lh w done.length t) ?_ h) ?_
  · intro tail a rest u hsplit hu
    obtain ⟨rfl, hlt⟩ := range_split hsplit
    have hmem : log.Mem (log.start + tail.length + 1) := ⟨by omega, by omega⟩
    have hready := hu.ready
    have hlen' := hlen
    rw [← hu.head] at hready hlen'
    refine wp_post (pass_log hready hlen' hmem (by rw [hu.head]; exact getD_mem hlt)) ?_
    rintro _ t ⟨hp, hlh⟩
    rw [hu.head] at hp hlh
    refine ⟨hp.ready, hlh, fun x hx => hp.stores x _ ?_ (hu.home x hx), fun i hi => ?_⟩
    · rintro rfl
      exact (hu.ready.home _ hx).2 hmem
    · rw [List.length_append, List.length_singleton] at hi
      by_cases hk : i = tail.length
      · rw [hk]
        exact hp.copied _ (hu.home _ (getD_mem hlt))
      · exact hp.stores _ _ (by omega) (hu.blocks i (by omega))
  · intro _ t ht
    rwa [List.length_range] at ht

theorem installTrans_spec {w : ℕ → Block} (h : Logged log lh w lh.length s)
    (hlen : lh.length < NBUF) (hlog : lh.length < log.size) :
    wp (installTrans log) s
      (fun _ t => Logged log lh w lh.length t ∧ ∀ x ∈ lh, t.cache.Clean x) (fun _ => False) := by
  unfold installTrans
  rw [wp_bind, wp_get, h.head]
  refine wp_post (wp_forM (I := fun done t => Logged log lh w lh.length t ∧
    ∀ i < done.length, t.cache.Clean (lh.getD i 0)) ?_ ⟨h, by simp⟩) ?_
  · rintro tail a rest u hsplit ⟨hu, hclean⟩
    obtain ⟨rfl, hlt⟩ := range_split hsplit
    have hmem : log.Mem (log.start + tail.length + 1) := ⟨by omega, by omega⟩
    have hready := hu.ready
    have hlen' := hlen
    rw [← hu.head] at hready hlen'
    refine wp_post (pass_install hready hlen' hmem (by rw [hu.head]; exact getD_mem hlt)) ?_
    rintro _ t ⟨hp, hlh⟩
    rw [hu.head] at hp hlh
    refine ⟨⟨hp.ready, hlh, fun x hx => ?_, fun i hi => hp.stores _ _ ?_ (hu.blocks i hi)⟩,
      fun i hi => ?_⟩
    · by_cases hxt : x = lh.getD tail.length 0
      · rw [hxt]
        exact hp.copied _ (hu.blocks _ hlt)
      · exact hp.stores x _ hxt (hu.home x hx)
    · intro heq
      exact (hu.ready.home _ (getD_mem hlt)).2 (heq ▸ ⟨by omega, by omega⟩)
    · rw [List.length_append, List.length_singleton] at hi
      by_cases hk : i = tail.length
      · rw [hk]
        exact hp.clean
      · exact (hclean i (by omega)).mono hp.dirty
  · rintro _ t ⟨ht, hclean⟩
    refine ⟨ht, fun x hx => ?_⟩
    obtain ⟨i, hi, rfl⟩ := List.getElem_of_mem hx
    have hc := hclean i (by rwa [List.length_range])
    rwa [List.getD_eq_getElem _ _ hi] at hc

theorem clean_of_pinned (h : c.Ready log lh) (hclean : ∀ x ∈ lh, c.Clean x) (b : BufId) :
    (c.buf b).dirty = false := by
  by_contra hb
  obtain ⟨x, hx, hbx⟩ := h.pinned b (Bool.eq_true_of_not_eq_false hb)
  exact hb (hclean x hx b hbx)

theorem commit_logged {w : ℕ → Block} (h : Logged log lh w 0 s) (hpos : 0 < lh.length)
    (hlen : lh.length < NBUF) (hlog : lh.length < log.size) :
    wp (commit log) s
      (fun _ t => (∀ b, (t.cache.buf b).busy = false ∧ (t.cache.buf b).dirty = false) ∧
        t.lh = [] ∧ ∀ x ∈ lh, t.cache.Stores x (w x)) (fun _ => False) := by
  have hne : ∀ x ∈ lh, x ≠ log.start := by
    rintro x hx rfl
    exact (h.ready.home _ hx).2 ⟨le_rfl, by omega⟩
  unfold commit
  rw [wp_bind, wp_get, if_pos (by rwa [h.head])]
  refine wp_seq (writeLog_spec h hlen hlog) ?_
  intro _ t₁ h₁
  refine wp_seq (writeHead_spec (h₁.head ▸ h₁.ready) (by rwa [h₁.head]) (by omega)) ?_
  rintro _ t₂ ⟨hready₂, -, hst₂, hlh₂⟩
  rw [h₁.head] at hready₂ hlh₂
  have h₂ : Logged log lh w lh.length t₂ :=
    ⟨hready₂, hlh₂, fun x hx => hst₂ x _ (hne x hx) (h₁.home x hx),
      fun i hi => hst₂ _ _ (by omega) (h₁.blocks i hi)⟩
  refine wp_seq (installTrans_spec h₂ hlen hlog) ?_
  rintro _ t₃ ⟨h₃, hclean⟩
  have hready₃ : t₃.cache.Ready log [] := by
    refine ⟨h₃.ready.sound, h₃.ready.idle, fun b hb => ?_, by simp, h₃.ready.area⟩
    rw [clean_of_pinned h₃.ready hclean b] at hb
    cases hb
  rw [wp_bind, wp_modify]
  refine wp_post (writeHead_spec (s := ⟨t₃.cache, []⟩) hready₃ (Nat.zero_lt_of_lt hlen)
    (by omega)) ?_
  rintro _ t ⟨hready, -, hst, hlh⟩
  exact ⟨fun b => ⟨hready.idle b, clean_of_pinned hready (by simp) b⟩, hlh,
    fun x hx => hst x _ (hne x hx) (h₃.home x hx)⟩

end pass

/-- With one buffer more than there are blocks in the transaction, `commit` never runs out of
buffers nor waits for one: it installs every block and leaves all buffers clean and free. -/
theorem commit_finds_buffers {log : LogArea} (h : s.cache.Sound)
    (hidle : ∀ b, (s.cache.buf b).busy = false)
    (hdirty : ∀ b, (s.cache.buf b).dirty = true ↔ ∃ x ∈ s.lh, s.cache.Tagged b x)
    (hcached : ∀ x ∈ s.lh, ∃ b, s.cache.Tagged b x) (hsize : log.size = LOGSIZE)
    (hlen : s.lh.length ≤ log.size - 1) (hout : ∀ x ∈ s.lh, ¬log.Mem x)
    (hdisk : ∀ x, log.Mem x ∨ x ∈ s.lh → x < s.cache.disksize) :
    wp (commit log) s
      (fun _ t => (∀ b, (t.cache.buf b).busy = false ∧ (t.cache.buf b).dirty = false) ∧
        t.lh = [] ∧ ∀ b x, x ∈ s.lh → s.cache.Tagged b x →
          t.cache.disk x = (s.cache.buf b).data ∧
            ∀ b', t.cache.Tagged b' x → (t.cache.buf b').valid = true →
              (t.cache.buf b').data = (s.cache.buf b).data)
      (fun _ => False) := by
  have hL : LOGSIZE = 30 := rfl
  have hN : NBUF = 30 := rfl
  by_cases hpos : 0 < s.lh.length
  · have harea : log.start + log.size ≤ s.cache.disksize := by
      have hlast := hdisk (log.start + (log.size - 1)) (Or.inl ⟨by omega, by omega⟩)
      omega
    have hne : Nonempty BufId := ⟨⟨0, by decide⟩⟩
    choose! f hf using hcached
    have hdata : ∀ b x, x ∈ s.lh → s.cache.Tagged b x →
        (s.cache.buf b).data = (s.cache.buf (f x)).data := by
      intro b x hx hb
      rw [h.unique x (f x) b (hf x hx) hb]
    have hstart : Logged log s.lh (fun x => (s.cache.buf (f x)).data) 0 s := by
      refine ⟨⟨h, hidle, fun b hb => (hdirty b).mp hb,
        fun x hx => ⟨hdisk x (Or.inr hx), hout x hx⟩, harea⟩, rfl,
        fun x hx => ⟨fun b hb _ => hdata b x hx hb, fun hclean => ?_⟩, by simp⟩
      have hd := (hdirty (f x)).mpr ⟨x, hx, hf x hx⟩
      rw [hclean (f x) (hf x hx)] at hd
      cases hd
    refine wp_post (commit_logged hstart hpos (by omega) (by omega)) ?_
    rintro _ t ⟨hfree, hlh, hst⟩
    refine ⟨hfree, hlh, fun b x hx hb => ?_⟩
    rw [hdata b x hx hb]
    exact ⟨(hst x hx).disk fun b' _ => (hfree b').2,
      fun b' hb' hv => (hst x hx).data b' hb' (Or.inl hv)⟩
  · have hnil : s.lh = [] := List.length_eq_zero_iff.mp (by omega)
    rw [commit, wp_bind, wp_get, if_neg hpos, wp_pure]
    refine ⟨fun b => ⟨hidle b, ?_⟩, hnil, fun b x hx => by simp [hnil] at hx⟩
    by_contra hb
    obtain ⟨x, hx, -⟩ := (hdirty b).mp (Bool.eq_true_of_not_eq_false hb)
    simp [hnil] at hx

def pinnedCache : Bcache :=
  { Bcache.binit (fun _ => Bytes.zero) 1024 with
    buf := fun b =>
      if b.val < 29 then ⟨ROOTDEV, 100 + b.val, false, true, true, Bytes.zero⟩
      else ⟨NODEV, 0, false, false, false, Bytes.zero⟩ }

theorem pinnedCache_buf (b : BufId) :
    (pinnedCache.buf b).busy = false ∧ ((pinnedCache.buf b).dirty = true ↔ b.val < 29) ∧
      ∀ x, pinnedCache.Tagged b x ↔ b.val < 29 ∧ x = 100 + b.val := by
  unfold Tagged pinnedCache
  dsimp only
  by_cases hb : b.val < 29
  · rw [if_pos hb]
    simp [hb, eq_comm]
  · rw [if_neg hb]
    simp [hb, NODEV, ROOTDEV]

theorem commit_finds_last_buffer :
    wp (commit (initlog mkfsSb)) ⟨pinnedCache, List.range' 100 29⟩
      (fun _ t => (∀ b, (t.cache.buf b).busy = false ∧ (t.cache.buf b).dirty = false) ∧
        t.lh = [] ∧ ∀ b x, x ∈ List.range' 100 29 → pinnedCache.Tagged b x →
          t.cache.disk x = (pinnedCache.buf b).data ∧
            ∀ b', t.cache.Tagged b' x → (t.cache.buf b').valid = true →
              (t.cache.buf b').data = (pinnedCache.buf b).data)
      (fun _ => False) := by
  have hN : NBUF = 30 := rfl
  have hmem : ∀ x, x ∈ List.range' 100 29 ↔ 100 ≤ x ∧ x < 129 := fun x => List.mem_range'_1
  have hlog : ∀ x, (initlog mkfsSb).Mem x ↔ 994 ≤ x ∧ x < 1024 := fun x => Iff.rfl
  refine @commit_finds_buffers ⟨pinnedCache, List.range' 100 29⟩ (initlog mkfsSb)
    ⟨⟨_, Bcache.listed_binit (fun _ => Bytes.zero) 1024⟩, fun x b b' hb hb' => ?_⟩
    (fun b => (pinnedCache_buf b).1) (fun b => ?_) (fun x hx => ?_) rfl (by decide) (fun x hx => ?_)
    (fun x hx => ?_)
  · have hb := ((pinnedCache_buf b).2.2 x).mp hb
    have hb' := ((pinnedCache_buf b').2.2 x).mp hb'
    exact Fin.ext (by omega)
  · rw [(pinnedCache_buf b).2.1]
    constructor
    · exact fun hb => ⟨100 + b.val, (hmem _).mpr (by omega),
        ((pinnedCache_buf b).2.2 _).mpr ⟨hb, rfl⟩⟩
    · rintro ⟨x, -, hx⟩
      exact (((pinnedCache_buf b).2.2 x).mp hx).1
  · have hx' := (hmem x).mp hx
    refine ⟨⟨x - 100, by omega⟩, ((pinnedCache_buf _).2.2 x).mpr ?_⟩
    dsimp only
    omega
  · have hx' := (hmem x).mp hx
    rw [hlog]
    omega
  · have hx' : x < 1024 := by
      rcases hx with hx | hx
      · exact ((hlog x).mp hx).2
      · have hx := (hmem x).mp hx
        omega
    exact hx'

end LogCache

end Xv6
