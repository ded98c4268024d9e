import Xv6.Ide.Driver

/-! The driver of `ide.c` against that of `memide.c`: as long as the device does not fail, its
buffers and its disk are those of the in-memory driver run in the order of completion. -/
namespace Xv6

namespace Ide

/-- What the in-memory driver sees: a buffer that its holder changes, and a call of `iderw`. -/
inductive MemEvent where
  | set (b : BufId) (x : Buf)
  | rw (b : BufId)

def MemEvent.request : MemEvent → Option BufId
  | .set _ _ => none
  | .rw b => some b

def memStep (c : Bcache) : MemEvent → Option Bcache
  | .set b x => some (c.setBuf b x)
  | .rw b => (c.iderw b).toOption

/-- What an event is for the in-memory driver. A call of `iderw` takes place when its
interrupt is handled. -/
def memEvents (s : Ide) : Event → List MemEvent
  | .get b dev sector => (got (s.c.buf b) dev sector).toList.map (.set b)
  | .release b => [.set b { s.c.buf b with busy := false }]
  | .store b data => [.set b { s.c.buf b with data := data }]
  | .mark b => [.set b { s.c.buf b with dirty := true }]
  | .call _ => []
  | .intr _ => s.idequeue.toList.map .rw
  | .ret _ => []

def memTrace (s : Ide) : List Event → List MemEvent
  | [] => []
  | e :: es =>
    s.memEvents e ++
      match s.step e with
      | some t => t.memTrace es
      | none => []

/-- The calls are for sectors of disk 1, and the device completes without error. -/
def Assumed (s : Ide) : Event → Prop
  | .call b => (s.c.buf b).dev = 1 ∧ (s.c.buf b).sector < s.c.disksize
  | .intr status => ¬Failed status
  | _ => True

instance (s : Ide) (e : Event) : Decidable (Assumed s e) := by
  cases e <;> unfold Assumed <;> infer_instance

/-- The queue, with every request on it within the disk. -/
structure Sound (s : Ide) (L : List BufId) : Prop where
  queue : Queue s L
  inside : ∀ b ∈ L, (s.c.buf b).dev = 1 ∧ (s.c.buf b).sector < s.c.disksize
  disksize : s.c.disksize ≤ 2 ^ 28
  havedisk1 : s.havedisk1

section step

variable {s t : Ide} {L : List BufId} {b : BufId}

theorem Outside.memEvents {e : Event} {x : Buf} {stored : Bool} (h : Outside s e b x stored) :
    s.memEvents e = [.set b x] := by
  cases h with
  | get hgot => simp [Ide.memEvents, hgot]
  | release => rfl
  | store => rfl
  | mark => rfl

/-- The interrupt that completes a request has the effect of `iderw` of `memide.c`. -/
theorem Sound.ideintr (h : Sound s (b :: L)) {status : BitVec 8} (hok : ¬Failed status) :
    s.c.iderw b = .ok (s.ideintr status).c := by
  have hin := h.queue.inCall b List.mem_cons_self
  have hbusy := h.queue.busy b hin
  have hflags : ¬((s.c.buf b).valid ∧ ¬(s.c.buf b).dirty) := fun hv =>
    (h.queue.ready b hin).mpr hv List.mem_cons_self
  obtain ⟨hdev, hsector⟩ := h.inside b List.mem_cons_self
  have hmod : (s.c.buf b).sector % 2 ^ 28 = (s.c.buf b).sector :=
    Nat.mod_eq_of_lt (hsector.trans_le h.disksize)
  have hactive : s.active = some (if (s.c.buf b).dirty then
      .write 1 (s.c.buf b).sector (s.c.buf b).data else .read 1 (s.c.buf b).sector) := by
    have hcmd : s.active = some (command (s.c.buf b)) := h.queue.active
    simpa only [command, hdev, hmod, Nat.mod_succ] using hcmd
  rw [(h.queue.ideintr status).2]
  unfold Bcache.iderw
  by_cases hdirty : (s.c.buf b).dirty
  · simp [hbusy, hdev, not_le.mpr hsector, hdirty, hactive, complete, hok, setDrive, handled,
      Bcache.setBuf]
  · have hvalid : (s.c.buf b).valid = false := by simpa [hdirty] using hflags
    simp [hbusy, hdev, not_le.mpr hsector, hdirty, hvalid, hactive, complete, hok, handled,
      Bcache.setBuf, sectorRead, drive]

theorem Queue.ideintr_disksize (h : Queue s (b :: L)) (status : BitVec 8) :
    (s.ideintr status).c.disksize = s.c.disksize := by
  obtain ⟨disk, disk0, heq⟩ := s.complete_eq status
  rw [(h.ideintr status).2, heq]
  rfl

theorem Sound.after_ideintr (h : Sound s (b :: L)) (status : BitVec 8) :
    Sound (s.ideintr status) L where
  queue := (h.queue.ideintr status).1
  inside := by
    intro b' hb'
    have hne : b' ≠ b := by
      rintro rfl
      exact (List.nodup_cons.mp h.queue.nodup).1 hb'
    rw [h.queue.ideintr_other status hne, h.queue.ideintr_disksize]
    exact h.inside b' (List.mem_cons_of_mem b hb')
  disksize := (h.queue.ideintr_disksize status).trans_le h.disksize
  havedisk1 := (s.ideintr_havedisk1 status).trans h.havedisk1

theorem Sound.step {e : Event} (h : Sound s L) (hassumed : s.Assumed e)
    (hstep : s.step e = some t) :
    (∃ L', Sound t L') ∧ Run.exec memStep s.c (s.memEvents e) = some t.c ∧
      t.done = s.done ++ (s.memEvents e).filterMap MemEvent.request := by
  obtain ⟨b, x, stored, hout, hb, rfl⟩ | ⟨b, rfl, hb, hbusy, hflags, rfl⟩ |
    ⟨status, b, l, rfl, rfl, rfl⟩ | ⟨b, rfl, -, hb, rfl⟩ := h.queue.step_cases hstep
  · rw [hout.memEvents]
    refine ⟨⟨L, h.queue.touch hb x stored, ?_, h.disksize, h.havedisk1⟩, rfl,
      (List.append_nil _).symm⟩
    intro b' hb'
    have hne : b' ≠ b := by
      rintro rfl
      exact hb (h.queue.inCall b' hb')
    have hbuf : (s.touch b x stored).c.buf b' = s.c.buf b' := Function.update_of_ne hne _ _
    rw [hbuf]
    exact h.inside b' hb'
  · refine ⟨⟨L ++ [b], h.queue.enqueue hb hbusy hflags, ?_, ?_, ?_⟩, ?_, ?_⟩
    · rw [enqueue_c]
      intro b' hb'
      rcases List.mem_append.mp hb' with hL | hL
      · exact h.inside b' hL
      · exact List.mem_singleton.mp hL ▸ hassumed
    · rw [enqueue_c]
      exact h.disksize
    · exact (s.enqueue_havedisk1 b).trans h.havedisk1
    · rw [enqueue_c]
      rfl
    · exact (enqueue_done s b).trans (List.append_nil _).symm
  · have hq : s.idequeue = some b := h.queue.linked.1
    refine ⟨⟨l, h.after_ideintr status⟩, ?_, ?_⟩
    · simp [memEvents, hq, Run.exec, memStep, h.ideintr hassumed, Except.toOption]
    · simp only [memEvents, hq, Option.toList_some, List.map_cons, List.map_nil]
      exact s.ideintr_done hq status
  · exact ⟨⟨L, h.queue.ret hb, h.inside, h.disksize, h.havedisk1⟩, rfl, (List.append_nil _).symm⟩

theorem Sound.run {es : List Event} (h : Sound s L) (hassumed : Run.Along Ide.step Assumed s es)
    (hrun : Run.exec Ide.step s es = some t) :
    (∃ L', Sound t L') ∧ Run.exec memStep s.c (s.memTrace es) = some t.c ∧
      t.done = s.done ++ (s.memTrace es).filterMap MemEvent.request := by
  induction es generalizing s L with
  | nil =>
    obtain rfl := Option.some.inj hrun
    exact ⟨⟨L, h⟩, rfl, (List.append_nil _).symm⟩
  | cons e es ih =>
    obtain ⟨u, hu, hrun⟩ := Run.exec_cons hrun
    obtain ⟨⟨L', h'⟩, hmem, hdone⟩ := h.step hassumed.1 hu
    obtain ⟨hsound, hmem', hdone'⟩ := ih h' (hassumed.2 u hu) hrun
    refine ⟨hsound, ?_, ?_⟩
    · simp only [memTrace, hu]
      exact Run.exec_append hmem hmem'
    · simp only [memTrace, hu, List.filterMap_append]
      rw [hdone', hdone, List.append_assoc]

theorem Queue.drain (h : Queue s L) (status : BitVec 8) :
    ∃ u, Run.exec Ide.step s (List.replicate L.length (.intr status)) = some u ∧ Queue u [] ∧
      u.inCall = s.inCall := by
  induction L generalizing s with
  | nil => exact ⟨s, rfl, h, rfl⟩
  | cons b L ih =>
    obtain ⟨u, hu, hq, hin⟩ := ih (h.ideintr status).1
    have hactive : s.active.isSome := by simp [h.active]
    refine ⟨u, ?_, hq, hin.trans (s.ideintr_inCall status)⟩
    rw [List.length_cons, List.replicate_succ, Run.exec, Ide.step, if_pos hactive]
    exact hu

theorem Sound.call (h : Sound s L) (hb : b ∉ s.inCall) (hbusy : (s.c.buf b).busy)
    (hflags : ¬((s.c.buf b).valid ∧ ¬(s.c.buf b).dirty)) :
    s.step (.call b) = some (s.enqueue b) := by
  have hrw : s.iderw b = .ok (s.enqueue b) := by
    simp only [iderw]
    rw [if_neg (by simp [hbusy]), if_neg hflags, if_neg (by simp [h.havedisk1])]
  rw [Ide.step, if_neg hb, hrw]
  rfl

end step

/-- From an idle driver, as long as the requests are for sectors of disk 1 and the device does
not fail: the queue holds the pending calls in their order, each request is started once and
alone, a call that can return has its buffer valid and clean, and the buffers and disk 1 are
those of `memide.c` run on the requests in the order of completion. A call does not panic, and
all calls can return after one interrupt for each buffer on the queue. -/
theorem iderw_refines_memide (s t : Ide) (es : List Event) (hidle : Idle s)
    (hdisk1 : s.havedisk1) (hsize : s.c.disksize ≤ 2 ^ 28)
    (hassumed : Run.Along step Assumed s es) (hrun : Run.exec step s es = some t) :
    ∃ L, Linked t.qnext t.idequeue L ∧ L.Nodup ∧ t.calls = t.done ++ L ∧
      t.issued = t.done ++ L.take 1 ∧ t.clash = false ∧
      (∀ b ∈ t.inCall, b ∉ L ↔ (t.c.buf b).valid ∧ ¬(t.c.buf b).dirty) ∧
      Run.exec memStep s.c (s.memTrace es) = some t.c ∧
      (s.memTrace es).filterMap MemEvent.request = t.done ∧
      (∀ b ∉ t.inCall, (t.c.buf b).busy → ¬((t.c.buf b).valid ∧ ¬(t.c.buf b).dirty) →
        (t.step (.call b)).isSome) ∧
      ∀ status, ∃ u, Run.exec step t (List.replicate L.length (.intr status)) = some u ∧
        ∀ b ∈ t.inCall, (u.step (.ret b)).isSome := by
  have hsound : Sound s [] := ⟨hidle.queue, by simp, hsize, hdisk1⟩
  obtain ⟨⟨L, h⟩, hmem, hdone⟩ := hsound.run hassumed hrun
  rw [hidle.done, List.nil_append] at hdone
  refine ⟨L, h.queue.linked, h.queue.nodup, h.queue.calls, h.queue.issued, h.queue.clash,
    h.queue.ready, hmem, hdone.symm, ?_, ?_⟩
  · intro b hb hbusy hflags
    rw [h.call hb hbusy hflags]
    rfl
  · intro status
    obtain ⟨u, hu, hq, hin⟩ := h.queue.drain status
    refine ⟨u, hu, fun b hb => ?_⟩
    rw [← hin] at hb
    have hready := (hq.ready b hb).mp (by simp)
    rw [step, if_pos ⟨hb, hready⟩]
    rfl

/-- A request that waits on the queue behind another one. -/
theorem iderw_refines_memide_queue :
    let a : BufId := ⟨0, by decide⟩
    let b : BufId := ⟨1, by decide⟩
    let s := ideinit (fun sector _ => sector.toUInt8) (fun _ _ => 0) 1024 true
    let es := [.get a 1 2, .get b 1 3, .call a, .call b, .intr 0x40#8, .intr 0x40#8, .ret b, .ret a]
    ∃ t, Run.exec step s es = some t ∧ t.done = [a, b] ∧ (t.c.buf a).data = (fun _ => 2) ∧
      (t.c.buf b).data = (fun _ => 3) ∧ Run.exec memStep s.c (s.memTrace es) = some t.c := by
  intro a b s es
  refine ⟨_, rfl, rfl, rfl, rfl, ?_⟩
  have hassumed : Run.Along step Assumed s es := by decide
  obtain ⟨L, -, -, -, -, -, -, hmem, -⟩ := iderw_refines_memide s _ es
    (idle_ideinit _ _ _ _) rfl (by decide) hassumed rfl
  exact hmem

end Ide

end Xv6
