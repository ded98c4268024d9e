import Mathlib.Data.Fintype.Card
import Xv6.Bio.Cache
import Xv6.Lib.Linked
import Xv6.Lib.Run

/-! The interrupt-driven driver of `ide.c`: its queue of buffers, the requests it issues, and
the interleaving of calls of `iderw` with interrupts of the device. -/
namespace Xv6

namespace Ide

def IDE_DF : BitVec 8 := 0x20#8

def IDE_ERR : BitVec 8 := 0x01#8

/-- What `idestart` programs into the device, with the data a write has handed over. -/
inductive Command where
  | read (drive sector : ℕ)
  | write (drive sector : ℕ) (data : Block)

def Command.isRead : Command → Bool
  | .read _ _ => true
  | .write _ _ _ => false

def command (x : Buf) : Command :=
  if x.dirty then .write (x.dev % 2) (x.sector % 2 ^ 28) x.data
  else .read (x.dev % 2) (x.sector % 2 ^ 28)

end Ide

/-- The driver, the buffers and disk 1 of the cache, and disk 0. `active` is the request the
device is working on, `inCall` the buffers with a call of `iderw` that has not returned.
`calls`, `issued` and `done` record the buffers of the calls, of the requests started and of
the interrupts handled, `clash` a request started while another one was active, and `genuine`
the buffers whose contents came from a disk or were written by the kernel. -/
structure Ide where
  c : Bcache
  disk0 : Disk
  havedisk1 : Bool
  qnext : BufId → Option BufId
  idequeue : Option BufId
  active : Option Ide.Command
  inCall : Finset BufId
  calls : List BufId
  issued : List BufId
  done : List BufId
  clash : Bool
  genuine : Finset BufId

namespace Ide

def drive (s : Ide) (drive : ℕ) : Disk := if drive = 1 then s.c.disk else s.disk0

def setDrive (s : Ide) (drive sector : ℕ) (data : Block) : Ide :=
  if drive = 1 then { s with c := { s.c with disk := Function.update s.c.disk sector data } }
  else { s with disk0 := Function.update s.disk0 sector data }

def idestart (s : Ide) (b : BufId) : Ide :=
  { s with
    active := some (command (s.c.buf b))
    issued := s.issued ++ [b]
    clash := s.clash || s.active.isSome }

/-- `b->qnext = 0`, and the walk along `pp` to the end of the queue. -/
def append (s : Ide) (b : BufId) : Ide :=
  let qnext := Function.update s.qnext b none
  match s.idequeue with
  | none => { s with qnext := qnext, idequeue := some b }
  | some h => { s with qnext := Function.update qnext (lastFrom qnext NBUF h) (some b) }

def enqueue (s : Ide) (b : BufId) : Ide :=
  let t := s.append b
  let t := if t.idequeue = some b then t.idestart b else t
  { t with inCall := insert b s.inCall, calls := s.calls ++ [b] }

/-- `iderw` up to the loop in which it sleeps. -/
def iderw (s : Ide) (b : BufId) : Except String Ide :=
  let x := s.c.buf b
  if ¬x.busy then .error "iderw: buf not busy"
  else if x.valid ∧ ¬x.dirty then .error "iderw: nothing to do"
  else if x.dev ≠ 0 ∧ ¬s.havedisk1 then .error "iderw: ide disk 1 not present"
  else
    .ok (s.enqueue b)

/-- `idewait(1)` found `IDE_DF` or `IDE_ERR` in the status. -/
def Failed (status : BitVec 8) : Prop := status &&& (IDE_DF ||| IDE_ERR) ≠ 0

instance (status : BitVec 8) : Decidable (Failed status) := inferInstanceAs (Decidable (_ ≠ _))

def sectorRead (s : Ide) : Block :=
  match s.active with
  | some (.read drive sector) => s.drive drive sector
  | _ => Bytes.zero

/-- The device ends the request: a write that has not failed is on the disk. -/
def complete (s : Ide) (status : BitVec 8) : Ide :=
  match s.active with
  | some (.write drive sector data) =>
    { (if Failed status then s else s.setDrive drive sector data) with active := none }
  | _ => { s with active := none }

def handled (x : Buf) (status : BitVec 8) (data : Block) : Buf :=
  { x with
    data := if ¬x.dirty ∧ ¬Failed status then data else x.data
    valid := true
    dirty := false }

/-- The end of the active request with `status`, and `ideintr`. -/
def ideintr (s : Ide) (status : BitVec 8) : Ide :=
  let t := s.complete status
  match s.idequeue with
  | none => t
  | some b =>
    let x := s.c.buf b
    let t := { t with
      idequeue := s.qnext b
      c := t.c.setBuf b (handled x status s.sectorRead)
      done := s.done ++ [b]
      genuine := if x.dirty ∨ ¬Failed status then insert b s.genuine else s.genuine }
    match t.idequeue with
    | none => t
    | some b' => t.idestart b'

/-- What the processes and the device do. `get` is `bget` returning the buffer, `release` is
`brelse`, `store` a write to the data, `mark` is `B_DIRTY` of `bwrite` and `log_write`; `call`
is a call of `iderw` and `ret` its return. -/
inductive Event where
  | get (b : BufId) (dev sector : ℕ)
  | release (b : BufId)
  | store (b : BufId) (data : Block)
  | mark (b : BufId)
  | call (b : BufId)
  | intr (status : BitVec 8)
  | ret (b : BufId)

/-- The buffer `bget` hands out: the one that caches the sector, or one to be recycled. -/
def got (x : Buf) (dev sector : ℕ) : Option Buf :=
  if x.busy then none
  else if x.dev = dev ∧ x.sector = sector then some { x with busy := true }
  else if x.dirty then none
  else some ⟨dev, sector, true, false, false, x.data⟩

/-- A process holds the buffer and is not inside `iderw` with it. -/
def Held (s : Ide) (b : BufId) : Prop := (s.c.buf b).busy ∧ b ∉ s.inCall

instance (s : Ide) (b : BufId) : Decidable (s.Held b) := inferInstanceAs (Decidable (_ ∧ _))

/-- A buffer with new fields. Data stored in a valid buffer are the kernel's. -/
def touch (s : Ide) (b : BufId) (x : Buf) (stored : Bool) : Ide :=
  { s with
    c := s.c.setBuf b x
    genuine :=
      if ¬x.valid then s.genuine.erase b else if stored then insert b s.genuine else s.genuine }

def step (s : Ide) : Event → Option Ide
  | .get b dev sector => (got (s.c.buf b) dev sector).map fun x => s.touch b x false
  | .release b =>
    if s.Held b then some (s.touch b { s.c.buf b with busy := false } false) else none
  | .store b data =>
    if s.Held b then some (s.touch b { s.c.buf b with data := data } true) else none
  | .mark b => if s.Held b then some (s.touch b { s.c.buf b with dirty := true } false) else none
  | .call b => if b ∈ s.inCall then none else (s.iderw b).toOption
  | .intr status => if s.active.isSome then some (s.ideintr status) else none
  | .ret b =>
    if b ∈ s.inCall ∧ (s.c.buf b).valid ∧ ¬(s.c.buf b).dirty then
      some { s with inCall := s.inCall.erase b }
    else none

/-- Nothing is queued and no call is under way; the history starts here. -/
structure Idle (s : Ide) : Prop where
  idequeue : s.idequeue = none
  active : s.active = none
  inCall : s.inCall = ∅
  calls : s.calls = []
  issued : s.issued = []
  done : s.done = []
  clash : s.clash = false

def ideinit (disk disk0 : Disk) (disksize : ℕ) (havedisk1 : Bool) : Ide where
  c := .binit disk disksize
  disk0 := disk0
  havedisk1 := havedisk1
  qnext := fun _ => none
  idequeue := none
  active := none
  inCall := ∅
  calls := []
  issued := []
  done := []
  clash := false
  genuine := ∅

theorem idle_ideinit (disk disk0 : Disk) (disksize : ℕ) (havedisk1 : Bool) :
    Idle (ideinit disk disk0 disksize havedisk1) :=
  ⟨rfl, rfl, rfl, rfl, rfl, rfl, rfl⟩

structure Queue (s : Ide) (L : List BufId) : Prop where
  linked : Linked s.qnext s.idequeue L
  nodup : L.Nodup
  active : s.active = L.head?.map fun b => command (s.c.buf b)
  inCall : ∀ b ∈ L, b ∈ s.inCall
  busy : ∀ b ∈ s.inCall, (s.c.buf b).busy
  ready : ∀ b ∈ s.inCall, b ∉ L ↔ (s.c.buf b).valid ∧ ¬(s.c.buf b).dirty
  calls : s.calls = s.done ++ L
  issued : s.issued = s.done ++ L.take 1
  clash : s.clash = false

section fields

variable (s : Ide) (b : BufId)

@[simp] theorem idestart_c : (s.idestart b).c = s.c := rfl

@[simp] theorem idestart_qnext : (s.idestart b).qnext = s.qnext := rfl

@[simp] theorem idestart_idequeue : (s.idestart b).idequeue = s.idequeue := rfl

@[simp] theorem idestart_inCall : (s.idestart b).inCall = s.inCall := rfl

@[simp] theorem idestart_calls : (s.idestart b).calls = s.calls := rfl

@[simp] theorem idestart_done : (s.idestart b).done = s.done := rfl

@[simp] theorem idestart_genuine : (s.idestart b).genuine = s.genuine := rfl

theorem append_eq :
    ∃ qnext idequeue, s.append b = { s with qnext := qnext, idequeue := idequeue } := by
  unfold append
  cases s.idequeue with
  | none => exact ⟨_, _, rfl⟩
  | some h => exact ⟨_, _, rfl⟩

@[simp] theorem append_c : (s.append b).c = s.c := by
  obtain ⟨_, _, h⟩ := s.append_eq b
  rw [h]

@[simp] theorem enqueue_c : (s.enqueue b).c = s.c := by
  simp only [enqueue]
  split <;> simp

@[simp] theorem enqueue_done : (s.enqueue b).done = s.done := by
  obtain ⟨_, _, h⟩ := s.append_eq b
  simp only [enqueue, h]
  split <;> rfl

@[simp] theorem enqueue_genuine : (s.enqueue b).genuine = s.genuine := by
  obtain ⟨_, _, h⟩ := s.append_eq b
  simp only [enqueue, h]
  split <;> rfl

@[simp] theorem enqueue_havedisk1 : (s.enqueue b).havedisk1 = s.havedisk1 := by
  obtain ⟨_, _, h⟩ := s.append_eq b
  simp only [enqueue, h]
  split <;> rfl

theorem complete_eq (status : BitVec 8) :
    ∃ disk disk0, s.complete status =
      { s with c := { s.c with disk := disk }, disk0 := disk0, active := none } := by
  unfold complete
  split
  · unfold setDrive
    split
    · exact ⟨_, _, rfl⟩
    · split
      · exact ⟨_, _, rfl⟩
      · exact ⟨_, _, rfl⟩
  · exact ⟨_, _, rfl⟩

theorem ideintr_done {b : BufId} (hq : s.idequeue = some b) (status : BitVec 8) :
    (s.ideintr status).done = s.done ++ [b] := by
  simp only [ideintr, hq]
  split <;> rfl

theorem ideintr_genuine {b : BufId} (hq : s.idequeue = some b) (status : BitVec 8) :
    (s.ideintr status).genuine =
      if (s.c.buf b).dirty ∨ ¬Failed status then insert b s.genuine else s.genuine := by
  simp only [ideintr, hq]
  split <;> rfl

theorem ideintr_inCall (status : BitVec 8) : (s.ideintr status).inCall = s.inCall := by
  obtain ⟨disk, disk0, h⟩ := s.complete_eq status
  simp only [ideintr, h]
  split
  · rfl
  · split <;> rfl

theorem ideintr_havedisk1 (status : BitVec 8) :
    (s.ideintr status).havedisk1 = s.havedisk1 := by
  obtain ⟨disk, disk0, h⟩ := s.complete_eq status
  simp only [ideintr, h]
  split
  · rfl
  · split <;> rfl

end fields

section queue

variable {s t : Ide} {L : List BufId} {b : BufId}

theorem Idle.queue (h : Idle s) : Queue s [] where
  linked := h.idequeue
  nodup := List.nodup_nil
  active := h.active
  inCall := by simp
  busy := by simp [h.inCall]
  ready := by simp [h.inCall]
  calls := by simp [h.calls, h.done]
  issued := by simp [h.issued, h.done]
  clash := h.clash

theorem Queue.touch (h : Queue s L) (hb : b ∉ s.inCall) (x : Buf) (stored : Bool) :
    Queue (s.touch b x stored) L := by
  have hother : ∀ b' ∈ s.inCall, (s.touch b x stored).c.buf b' = s.c.buf b' := by
    intro b' hb'
    exact Function.update_of_ne (by rintro rfl; exact hb hb') _ _
  refine ⟨h.linked, h.nodup, ?_, h.inCall, ?_, ?_, h.calls, h.issued, h.clash⟩
  · cases hL : L with
    | nil =>
      subst hL
      exact h.active
    | cons b' L' =>
      have hact := h.active
      rw [hL] at hact
      rw [List.head?_cons, Option.map_some, hother b' (h.inCall b' (by simp [hL]))]
      exact hact
  · intro b' hb'
    rw [hother b' hb']
    exact h.busy b' hb'
  · intro b' hb'
    rw [hother b' hb']
    exact h.ready b' hb'

theorem Queue.length_le (h : Queue s L) : L.length ≤ NBUF := by
  simpa using List.Nodup.length_le_card h.nodup

theorem Queue.append (h : Queue s L) (hb : b ∉ s.inCall) :
    Linked (s.append b).qnext (s.append b).idequeue (L ++ [b]) := by
  have hmem : b ∉ L := fun hmem => hb (h.inCall b hmem)
  have hlinked : Linked (Function.update s.qnext b none) s.idequeue L :=
    h.linked.congr fun a ha => Function.update_of_ne (by rintro rfl; exact hmem ha) _ _
  cases hL : L with
  | nil =>
    have hq : s.idequeue = none := by simpa [hL, Linked] using h.linked
    simp [Ide.append, hq, Linked]
  | cons a l =>
    rw [hL] at hlinked hmem
    have hlen := h.length_le
    have hnodup := h.nodup
    rw [hL] at hlen hnodup
    have hq := hlinked.1
    rw [hq] at hlinked
    have happend := hlinked.append hnodup hmem (Function.update_self b none s.qnext)
      (n := NBUF) (by simp at hlen; omega)
    simpa [Ide.append, hq] using happend

theorem iderw_ok (h : s.iderw b = .ok t) :
    (s.c.buf b).busy ∧ ¬((s.c.buf b).valid ∧ ¬(s.c.buf b).dirty) ∧ t = s.enqueue b := by
  simp only [iderw] at h
  split_ifs at h with hbusy hflags hdev
  exact ⟨by simpa using hbusy, hflags, (Except.ok.inj h).symm⟩

theorem Queue.enqueue (h : Queue s L) (hb : b ∉ s.inCall) (hbusy : (s.c.buf b).busy)
    (hflags : ¬((s.c.buf b).valid ∧ ¬(s.c.buf b).dirty)) : Queue (s.enqueue b) (L ++ [b]) := by
  have hlinked := h.append hb
  have hmem : b ∉ L := fun hmem => hb (h.inCall b hmem)
  obtain ⟨qnext, idequeue, heq⟩ := s.append_eq b
  rw [heq] at hlinked
  have hhead : idequeue = (L ++ [b]).head? := hlinked.head
  have hnodup : (L ++ [b]).Nodup :=
    h.nodup.append (List.nodup_singleton b) (by simpa using hmem)
  have hin : ∀ b' ∈ L ++ [b], b' ∈ insert b s.inCall := by
    intro b' hb'
    rcases List.mem_append.mp hb' with hL | hL
    · exact Finset.mem_insert_of_mem (h.inCall b' hL)
    · rw [List.mem_singleton.mp hL]
      exact Finset.mem_insert_self b s.inCall
  have hbusys : ∀ b' ∈ insert b s.inCall, (s.c.buf b').busy := by
    intro b' hb'
    rcases Finset.mem_insert.mp hb' with rfl | hold
    · exact hbusy
    · exact h.busy b' hold
  have hready : ∀ b' ∈ insert b s.inCall,
      b' ∉ L ++ [b] ↔ (s.c.buf b').valid ∧ ¬(s.c.buf b').dirty := by
    intro b' hb'
    rcases Finset.mem_insert.mp hb' with rfl | hold
    · exact iff_of_false (by simp) hflags
    · have hne : b' ≠ b := by
        rintro rfl
        exact hb hold
      simpa [hne] using h.ready b' hold
  cases L with
  | nil =>
    have hstart : s.enqueue b = { Ide.idestart (s.append b) b with
        inCall := insert b s.inCall, calls := s.calls ++ [b] } := by
      simp [Ide.enqueue, heq, hhead]
    have hactive : s.active = none := h.active
    rw [hstart, heq]
    exact ⟨hlinked, hnodup, rfl, hin, hbusys, hready, by simp [h.calls],
      by simp [Ide.idestart, h.issued], by simp [Ide.idestart, h.clash, hactive]⟩
  | cons a l =>
    have hne : a ≠ b := by
      rintro rfl
      exact hmem List.mem_cons_self
    have hwait : s.enqueue b = { s.append b with
        inCall := insert b s.inCall, calls := s.calls ++ [b] } := by
      simp [Ide.enqueue, heq, hhead, hne]
    rw [hwait, heq]
    exact ⟨hlinked, hnodup, h.active, hin, hbusys, hready, by simp [h.calls],
      h.issued, h.clash⟩

theorem Queue.ideintr (h : Queue s (b :: L)) (status : BitVec 8) :
    Queue (s.ideintr status) L ∧
      (s.ideintr status).c =
        (s.complete status).c.setBuf b (handled (s.c.buf b) status s.sectorRead) := by
  obtain ⟨disk, disk0, heq⟩ := s.complete_eq status
  have hq : s.idequeue = some b := h.linked.1
  have hmem : b ∉ L := (List.nodup_cons.mp h.nodup).1
  have hnext : s.qnext b = L.head? := h.linked.2.head
  have hbuf : ∀ b' ≠ b, Function.update s.c.buf b (handled (s.c.buf b) status s.sectorRead) b' =
      s.c.buf b' := fun b' hne => Function.update_of_ne hne _ _
  have hin : ∀ b' ∈ L, b' ∈ s.inCall := fun b' hb' => h.inCall b' (List.mem_cons_of_mem b hb')
  have hbusy : ∀ b' ∈ s.inCall,
      (Function.update s.c.buf b (handled (s.c.buf b) status s.sectorRead) b').busy := by
    intro b' hb'
    by_cases hne : b' = b
    · subst hne
      simpa [handled] using h.busy b' hb'
    · rw [hbuf b' hne]
      exact h.busy b' hb'
  have hready : ∀ b' ∈ s.inCall, b' ∉ L ↔
      (Function.update s.c.buf b (handled (s.c.buf b) status s.sectorRead) b').valid ∧
      ¬(Function.update s.c.buf b (handled (s.c.buf b) status s.sectorRead) b').dirty := by
    intro b' hb'
    by_cases hne : b' = b
    · subst hne
      simp [handled, hmem]
    · rw [hbuf b' hne, ← h.ready b' hb']
      simp [hne]
  cases L with
  | nil =>
    simp only [Ide.ideintr, heq, hq, hnext]
    exact ⟨⟨rfl, List.nodup_nil, rfl, hin, hbusy, hready, by simp [h.calls],
      by simp [h.issued], h.clash⟩, rfl⟩
  | cons a l =>
    simp only [Ide.ideintr, heq, hq, hnext]
    exact ⟨⟨⟨rfl, h.linked.2.2⟩, (List.nodup_cons.mp h.nodup).2, rfl, hin, hbusy, hready,
      by simp [h.calls], by simp [Ide.idestart, h.issued],
      by simp [Ide.idestart, h.clash]⟩, rfl⟩

theorem Queue.ideintr_other (h : Queue s (b :: L)) (status : BitVec 8) {b' : BufId}
    (hne : b' ≠ b) : (s.ideintr status).c.buf b' = s.c.buf b' := by
  obtain ⟨disk, disk0, heq⟩ := s.complete_eq status
  rw [(h.ideintr status).2, heq]
  exact Function.update_of_ne hne _ _

theorem Queue.ret (h : Queue s L) (hb : b ∉ L) :
    Queue { s with inCall := s.inCall.erase b } L where
  linked := h.linked
  nodup := h.nodup
  active := h.active
  inCall := fun b' hb' =>
    Finset.mem_erase.mpr ⟨fun heq => hb (heq ▸ hb'), h.inCall b' hb'⟩
  busy := fun b' hb' => h.busy b' (Finset.mem_of_mem_erase hb')
  ready := fun b' hb' => h.ready b' (Finset.mem_of_mem_erase hb')
  calls := h.calls
  issued := h.issued
  clash := h.clash

theorem got_free {x y : Buf} {dev sector : ℕ} (h : got x dev sector = some y) : ¬x.busy := by
  intro hbusy
  simp [got, hbusy] at h

/-- The events that leave the driver alone, by what they do to a buffer outside it. -/
inductive Outside (s : Ide) : Event → BufId → Buf → Bool → Prop where
  | get {b : BufId} {dev sector : ℕ} {x : Buf} (h : got (s.c.buf b) dev sector = some x) :
    Outside s (.get b dev sector) b x false
  | release {b : BufId} : Outside s (.release b) b { s.c.buf b with busy := false } false
  | store {b : BufId} {data : Block} :
    Outside s (.store b data) b { s.c.buf b with data := data } true
  | mark {b : BufId} : Outside s (.mark b) b { s.c.buf b with dirty := true } false

theorem Queue.step_cases {e : Event} (h : Queue s L) (hstep : s.step e = some t) :
    (∃ b x stored, Outside s e b x stored ∧ b ∉ s.inCall ∧ t = s.touch b x stored) ∨
    (∃ b, e = .call b ∧ b ∉ s.inCall ∧ (s.c.buf b).busy ∧
      ¬((s.c.buf b).valid ∧ ¬(s.c.buf b).dirty) ∧ t = s.enqueue b) ∨
    (∃ status b l, e = .intr status ∧ L = b :: l ∧ t = s.ideintr status) ∨
    ∃ b, e = .ret b ∧ b ∈ s.inCall ∧ b ∉ L ∧ t = { s with inCall := s.inCall.erase b } := by
  cases e with
  | get b dev sector =>
    obtain ⟨x, hx, rfl⟩ := Option.map_eq_some_iff.mp hstep
    exact .inl ⟨b, x, false, .get hx, fun hb => got_free hx (h.busy b hb), rfl⟩
  | release b =>
    simp only [step] at hstep
    split_ifs at hstep with hheld
    exact .inl ⟨b, _, _, .release, hheld.2, (Option.some.inj hstep).symm⟩
  | store b data =>
    simp only [step] at hstep
    split_ifs at hstep with hheld
    exact .inl ⟨b, _, _, .store, hheld.2, (Option.some.inj hstep).symm⟩
  | mark b =>
    simp only [step] at hstep
    split_ifs at hstep with hheld
    exact .inl ⟨b, _, _, .mark, hheld.2, (Option.some.inj hstep).symm⟩
  | call b =>
    simp only [step] at hstep
    split_ifs at hstep with hcall
    cases hrw : s.iderw b with
    | error msg => simp [hrw, Except.toOption] at hstep
    | ok u =>
      obtain ⟨hbusy, hflags, rfl⟩ := iderw_ok hrw
      rw [hrw] at hstep
      exact .inr (.inl ⟨b, rfl, hcall, hbusy, hflags, (Option.some.inj hstep).symm⟩)
  | intr status =>
    simp only [step] at hstep
    split_ifs at hstep with hactive
    cases L with
    | nil => simp [h.active] at hactive
    | cons b l => exact .inr (.inr (.inl ⟨status, b, l, rfl, rfl, (Option.some.inj hstep).symm⟩))
  | ret b =>
    simp only [step] at hstep
    split_ifs at hstep with hret
    exact .inr (.inr (.inr ⟨b, rfl, hret.1, (h.ready b hret.1).mpr hret.2,
      (Option.some.inj hstep).symm⟩))

theorem Queue.step {e : Event} (h : Queue s L) (hstep : s.step e = some t) :
    ∃ L', Queue t L' := by
  obtain ⟨b, x, stored, -, hb, rfl⟩ | ⟨b, -, hb, hbusy, hflags, rfl⟩ | ⟨status, b, l, -, rfl, rfl⟩ |
    ⟨b, -, -, hb, rfl⟩ := h.step_cases hstep
  · exact ⟨L, h.touch hb x stored⟩
  · exact ⟨L ++ [b], h.enqueue hb hbusy hflags⟩
  · exact ⟨l, (h.ideintr status).1⟩
  · exact ⟨L, h.ret hb⟩

end queue

end Ide

end Xv6
