import Xv6.Ide.Driver

/-! Where the contents of the valid buffers come from, when the device reports errors. -/
namespace Xv6

namespace Ide

/-- Every valid buffer has contents from a disk or from the kernel. -/
def Faithful (s : Ide) : Prop := ∀ b, (s.c.buf b).valid → b ∈ s.genuine

def ReadFault (s : Ide) : Event → Prop
  | .intr status => Failed status ∧ (s.active.map Command.isRead) = some true
  | _ => False

/-- Of a buffer that is not valid nothing is known. -/
def Blank (s : Ide) : Prop := ∀ b, ¬(s.c.buf b).valid → b ∉ s.genuine

section step

variable {s t : Ide} {L : List BufId} {b : BufId}

theorem Outside.valid {e : Event} {x : Buf} {stored : Bool} (h : Outside s e b x stored)
    (hx : x.valid) : (s.c.buf b).valid := by
  cases h with
  | get hgot =>
    simp only [got] at hgot
    split_ifs at hgot
    · obtain rfl := Option.some.inj hgot
      exact hx
    · obtain rfl := Option.some.inj hgot
      cases hx
  | release => exact hx
  | store => exact hx
  | mark => exact hx

theorem Outside.not_readFault {e : Event} {x : Buf} {stored : Bool}
    (h : Outside s e b x stored) : ¬s.ReadFault e := by
  cases h <;> exact id

theorem touch_genuine {x : Buf} {stored : Bool} {b' : BufId} (hne : b' ≠ b) :
    b' ∈ (s.touch b x stored).genuine ↔ b' ∈ s.genuine := by
  simp only [touch]
  split_ifs <;> simp [hne]

theorem touch_buf {x : Buf} {stored : Bool} {b' : BufId} (hne : b' ≠ b) :
    (s.touch b x stored).c.buf b' = s.c.buf b' :=
  Function.update_of_ne hne _ _

theorem touch_buf_self {x : Buf} {stored : Bool} : (s.touch b x stored).c.buf b = x :=
  Function.update_self _ _ _

theorem Faithful.touch (h : Faithful s) {e : Event} {x : Buf} {stored : Bool}
    (hout : Outside s e b x stored) : Faithful (s.touch b x stored) := by
  intro b' hvalid
  by_cases hne : b' = b
  · subst hne
    rw [touch_buf_self] at hvalid
    have hmem := h b' (hout.valid hvalid)
    cases stored <;> simp [Ide.touch, hvalid, hmem]
  · rw [touch_buf hne] at hvalid
    exact (touch_genuine hne).mpr (h b' hvalid)

theorem Blank.touch (h : Blank s) (x : Buf) (stored : Bool) : Blank (s.touch b x stored) := by
  intro b' hvalid
  by_cases hne : b' = b
  · subst hne
    rw [touch_buf_self] at hvalid
    simp [Ide.touch, hvalid]
  · rw [touch_buf hne] at hvalid
    exact fun hmem => h b' hvalid ((touch_genuine hne).mp hmem)

theorem Queue.ideintr_valid (h : Queue s (b :: L)) (status : BitVec 8) :
    ((s.ideintr status).c.buf b).valid := by
  rw [(h.ideintr status).2]
  simp [Bcache.setBuf, handled]

theorem Queue.readFault_iff (h : Queue s (b :: L)) (status : BitVec 8) :
    s.ReadFault (.intr status) ↔ Failed status ∧ ¬(s.c.buf b).dirty := by
  have hactive : s.active = some (command (s.c.buf b)) := h.active
  have hread : (command (s.c.buf b)).isRead = true ↔ ¬(s.c.buf b).dirty := by
    unfold command
    split_ifs with hdirty <;> simp [Command.isRead, hdirty]
  simp [ReadFault, hactive, hread]

theorem Queue.faithful_ideintr_iff (h : Queue s (b :: L)) (hfaithful : Faithful s)
    (hblank : Blank s) (status : BitVec 8) :
    Faithful (s.ideintr status) ↔ ¬s.ReadFault (.intr status) := by
  have hvalid := h.ideintr_valid status
  have hgenuine := s.ideintr_genuine h.linked.1 status
  rw [h.readFault_iff]
  constructor
  · rintro hf ⟨hfailed, hdirty⟩
    have hinvalid : ¬(s.c.buf b).valid := by
      intro hv
      exact (h.ready b (h.inCall b List.mem_cons_self)).mpr ⟨hv, hdirty⟩ List.mem_cons_self
    have hmem := hf b hvalid
    rw [hgenuine, if_neg (by simp [hfailed, hdirty])] at hmem
    exact hblank b hinvalid hmem
  · intro hok b' hv
    have hset : (s.c.buf b).dirty ∨ ¬Failed status := by
      by_contra hcon
      push Not at hcon
      exact hok ⟨hcon.2, hcon.1⟩
    rw [hgenuine, if_pos hset]
    by_cases hne : b' = b
    · exact hne ▸ Finset.mem_insert_self _ _
    · rw [h.ideintr_other status hne] at hv
      exact Finset.mem_insert_of_mem (hfaithful b' hv)

theorem Queue.blank_ideintr (h : Queue s (b :: L)) (hblank : Blank s) (status : BitVec 8) :
    Blank (s.ideintr status) := by
  have hvalid := h.ideintr_valid status
  intro b' hv
  have hne : b' ≠ b := by
    rintro rfl
    exact hv hvalid
  rw [h.ideintr_other status hne] at hv
  have hmem := hblank b' hv
  rw [s.ideintr_genuine h.linked.1 status]
  split_ifs
  · simp [hne, hmem]
  · exact hmem

theorem Queue.faithful_step_iff {e : Event} (h : Queue s L) (hfaithful : Faithful s)
    (hblank : Blank s) (hstep : s.step e = some t) :
    Blank t ∧ (Faithful t ↔ ¬s.ReadFault e) := by
  obtain ⟨b, x, stored, hout, -, rfl⟩ | ⟨b, rfl, -, -, -, rfl⟩ |
    ⟨status, b, l, rfl, rfl, rfl⟩ | ⟨b, rfl, -, -, rfl⟩ := h.step_cases hstep
  · exact ⟨hblank.touch x stored, iff_of_true (hfaithful.touch hout) hout.not_readFault⟩
  · refine ⟨?_, iff_of_true ?_ id⟩
    · simpa [Blank] using hblank
    · simpa [Faithful] using hfaithful
  · exact ⟨h.blank_ideintr hblank status, h.faithful_ideintr_iff hfaithful hblank status⟩
  · exact ⟨hblank, iff_of_true hfaithful id⟩

theorem ReadFault.enabled {e : Event} (h : s.ReadFault e) : s.step e ≠ none := by
  cases e with
  | intr status =>
    have hactive : s.active.isSome := by
      cases hs : s.active with
      | none => simp [ReadFault, hs] at h
      | some cmd => rfl
    simp [step, hactive]
  | _ => exact h.elim

theorem Queue.faithful_run_iff (h : Queue s L) (hfaithful : Faithful s) (hblank : Blank s)
    (es : List Event) :
    Run.Along Ide.step (fun s e => ∀ t, s.step e = some t → Faithful t) s es ↔
      Run.Along Ide.step (fun s e => ¬s.ReadFault e) s es := by
  induction es generalizing s L with
  | nil => exact Iff.rfl
  | cons e es ih =>
    cases hstep : s.step e with
    | none =>
      refine iff_of_true ⟨?_, ?_⟩ ⟨fun hf => hf.enabled hstep, ?_⟩ <;> simp [hstep]
    | some t =>
      obtain ⟨hblank', hiff⟩ := h.faithful_step_iff hfaithful hblank hstep
      obtain ⟨L', h'⟩ := h.step hstep
      rw [Run.along_cons hstep, Run.along_cons hstep]
      have hfirst : (∀ u, s.step e = some u → Faithful u) ↔ ¬s.ReadFault e := by
        rw [← hiff]
        simp [hstep]
      rw [hfirst]
      refine and_congr_right fun hok => ?_
      exact ih h' (hiff.mpr hok) hblank'

end step

/-- From boot on, the valid buffers hold genuine data after every step exactly if the device
ends no read with an error. -/
theorem ideintr_genuine_iff (disk disk0 : Disk) (disksize : ℕ) (havedisk1 : Bool)
    (es : List Event) :
    Run.Along step (fun s e => ∀ t, s.step e = some t → Faithful t)
        (ideinit disk disk0 disksize havedisk1) es ↔
      Run.Along step (fun s e => ¬s.ReadFault e) (ideinit disk disk0 disksize havedisk1) es :=
  (idle_ideinit disk disk0 disksize havedisk1).queue.faithful_run_iff
    (by intro b hb; cases hb) (by intro b _; exact Finset.notMem_empty b) es

/-- A read of sector 2 of a disk full of ones that ends with `IDE_ERR`: `iderw` returns a
valid buffer that holds the zeros it held before. -/
theorem ideintr_read_error :
    let b : BufId := ⟨0, by decide⟩
    ∃ t, Run.exec step (ideinit (fun _ _ => 1) (fun _ _ => 1) 1024 true)
        [.get b 1 2, .call b, .intr 0x41#8, .ret b] = some t ∧
      (t.c.buf b).valid ∧ (t.c.buf b).data = Bytes.zero ∧ b ∉ t.genuine :=
  ⟨_, rfl, rfl, rfl, Finset.notMem_empty _⟩

end Ide

end Xv6
