import Xv6.Pipe.Fifo
import Xv6.Sched.Signal

/-! Wake-ups of a pipe: nobody sleeps on `&p->nread` or `&p->nwrite` while there is something to do,
unless a `pipewrite` that gives up has not announced its bytes. -/
namespace Xv6.Pipes

open Ptable Sched Monitor

/-- The ring is non-empty or the write end is closed. -/
def Readable (d : Shared) : Prop := d.pipe.empty = false ∨ d.pipe.writeopen = false

/-- The ring is not full or the read end is closed. -/
def Writable (d : Shared) : Prop := d.pipe.full = false ∨ d.pipe.readopen = false

def Place.OwesRead : Place → Prop
  | .writing _ _ _ i told => told < i
  | .closing writable => writable = true
  | _ => False

def Place.OwesWrite : Place → Prop
  | .reading _ buf => buf ≠ []
  | .closing writable => writable = false
  | _ => False

/-- What a call knows of the pipe when it is about to sleep. -/
def Place.Knows (d : Shared) : Place → Prop
  | .writing _ _ _ i told => told ≤ i
  | .blocked _ _ _ _ => d.pipe.full = true ∧ d.pipe.readopen = true
  | _ => True

theorem knows_keeps : Monitor.Keeps pipeClient (fun _ => True) (fun x d => x.Knows d) where
  start {x d} hx _ := by
    cases x <;> first | exact trivial | cases hx
  compute {x y b d e} hJ hop := by
    cases does_of_next hop with
    | write => exact le_rfl
    | store _ _ => exact Nat.le_succ_of_le hJ
    | _ => exact trivial
  wakeup {x y b d k} _ hop := by
    cases does_of_next hop with
    | block _ hf ho => exact ⟨hf, ho⟩
    | _ => exact trivial
  sleep {x y b d k} _ hop := by
    cases does_of_next hop with
    | blocked => exact ⟨trivial, fun _ _ => le_rfl⟩
    | readSleep _ _ => exact ⟨trivial, fun _ _ => trivial⟩
  leave _ _ := trivial

theorem discipline_nread :
    Sys.Discipline pipeClient Chan.nread Readable Place.OwesRead (fun x d => x.Knows d) where
  compute {x y b d e} hJ hop he := by
    cases does_of_next hop with
    | write => exact .inr ⟨he, id⟩
    | store _ _ => exact .inl (Nat.lt_succ_of_le hJ)
    | readStart _ => exact .inr ⟨he, id⟩
    | deliver hd => exact .inr ⟨.inl hd, id⟩
    | @close writable =>
      cases writable with
      | true => exact .inl rfl
      | false => exact .inr ⟨he, id⟩
  wakeup {x y b d k} _ hop hx := by
    cases does_of_next hop with
    | block _ _ _ => exact .inl rfl
    | finish _ => exact .inl rfl
    | readStop _ => exact hx.elim
    | closing => exact .inl (if_pos hx)
  sleep {x y b d k} _ hop hd := by
    cases does_of_next hop with
    | blocked => exact ⟨nofun, id⟩
    | readSleep he hw =>
      rcases hd with hd | hd
      · exact nomatch he.symm.trans hd
      · exact nomatch hw.symm.trans hd

theorem discipline_nwrite :
    Sys.Discipline pipeClient Chan.nwrite Writable Place.OwesWrite (fun x d => x.Knows d) where
  compute {x y b d e} _ hop he := by
    cases does_of_next hop with
    | write => exact .inr ⟨he, id⟩
    | store _ hf => exact .inr ⟨.inl hf, id⟩
    | readStart _ => exact .inr ⟨he, id⟩
    | deliver _ => exact .inl (by simp [Place.OwesWrite])
    | @close writable =>
      cases writable with
      | true => exact .inr ⟨he, id⟩
      | false => exact .inl rfl
  wakeup {x y b d k} _ hop hx := by
    cases does_of_next hop with
    | block _ _ _ => exact hx.elim
    | finish _ => exact hx.elim
    | readStop _ => exact .inl rfl
    | @closing writable => exact .inl (if_neg (by rw [show writable = false from hx]; nofun))
  sleep {x y b d k} hJ hop hd := by
    cases does_of_next hop with
    | blocked =>
      rcases hd with hd | hd
      · exact nomatch hJ.1.symm.trans hd
      · exact nomatch hJ.2.symm.trans hd
    | readSleep _ _ => exact ⟨nofun, id⟩

theorem release_pipe (d : Shared) : d.release.pipe = d.pipe := by
  rw [Shared.release]
  split <;> rfl

variable {C : Type}

theorem mayLeave_nwrite (s : Sys C Chan Place Shared) (c : C) :
    s.MayLeave pipeClient .nwrite Writable Place.OwesWrite c := by
  intro p x d _ _ hop hd
  cases does_of_next hop with
  | giveUp _ _ _ => exact .inl ⟨hd, id⟩
  | written => exact .inl ⟨hd, id⟩
  | readKilled => exact .inl ⟨hd, id⟩
  | readDone => exact .inl ⟨hd, id⟩
  | closed =>
    rw [Writable, release_pipe] at hd
    exact .inl ⟨hd, id⟩

/-- A `pipewrite` is about to return -1 although it has stored bytes since its last
`wakeup(&p->nread)`. -/
def quits (d : Shared) (killed : Bool) : Pc Chan Place → Bool
  | .crit (.writing _ _ n i told) =>
    decide ((i : ℤ) < n) && d.pipe.full && (!d.pipe.readopen || killed) && decide (told < i)
  | _ => false

/-- A step in which no `pipewrite` returns -1 with bytes that it has not announced, while a process
sleeps on `&p->nread` or is about to. -/
def Careful (s : Sys C Chan Place Shared) (a : C × Choice Chan Place) : Prop :=
  ∀ p, s.mode a.1 = .run p → quits s.data (s.killed p) (s.pc p) = true → ∀ q, ¬s.Sleepy .nread q

instance (s : Sys C Chan Place Shared) (a : C × Choice Chan Place) : Decidable (Careful s a) :=
  inferInstanceAs (Decidable (∀ p, s.mode a.1 = .run p → _ → ∀ q, ¬s.Sleepy .nread q))

theorem mayLeave_nread {s : Sys C Chan Place Shared} {a : C × Choice Chan Place}
    (hside : s.Sided false) (hC : Careful s a) :
    s.MayLeave pipeClient .nread Readable Place.OwesRead a.1 := by
  intro p x d hc hpc hop hd
  have hcrit : s.pc p = .crit x := hpc.resolve_right fun h => nomatch hside p true (h ▸ rfl)
  cases does_of_next hop with
  | @giveUp _ _ n i told hi hf hk =>
    by_cases htold : told < i
    · refine .inr (hC p hc ?_)
      rw [hcrit, quits]
      rcases hk with hk | hk <;> simp [hi, hf, hk, htold]
    · exact .inl ⟨hd, htold⟩
  | written => exact .inl ⟨hd, id⟩
  | readKilled => exact .inl ⟨hd, id⟩
  | readDone => exact .inl ⟨hd, id⟩
  | closed =>
    rw [Readable, release_pipe] at hd
    exact .inl ⟨hd, id⟩

/-- Nobody sleeps who should not. -/
structure Awake (s : Sys C Chan Place Shared) : Prop where
  nread : ∀ p, s.Asleep .nread p → s.data.pipe.empty = true ∧ s.data.pipe.writeopen = true
  nwrite : ∀ p, s.Asleep .nwrite p → s.data.pipe.full = true ∧ s.data.pipe.readopen = true

variable [DecidableEq C]

/-- Pipes lose no wake-up in a run whose steps are careful. -/
theorem pipe_awake {data : Fin PIPESIZE → UInt8} {s : Sys C Chan Place Shared}
    {as : List (C × Choice Chan Place)}
    (hC : Run.Along (Sys.step pipeClient false) Careful (Sys.boot (.init data)) as)
    (h : Run.exec (Sys.step pipeClient false) (Sys.boot (.init data)) as = some s)
    (hlock : s.lk = none) : Awake s := by
  have hinv := Run.exec_invariant (I := fun s : Sys C Chan Place Shared =>
    s.Threads pipeClient false (.init data) ∧ s.Heard .nread Readable Place.OwesRead ∧
      s.Heard .nwrite Writable Place.OwesWrite) (fun s a t hs hCa hst => ?_)
    ⟨Sys.boot_threads .., Sys.boot_heard _, Sys.boot_heard _⟩ hC h
  · obtain ⟨hT, hr, hw⟩ := hinv
    have hlock : s.codeLock false = none := hlock
    refine ⟨fun p hp => ?_, fun p hp => ?_⟩
    · have := mt (hr.awake hT hlock · p) (not_not_intro hp)
      simpa [Readable] using this
    · have := mt (hw.awake hT hlock · p) (not_not_intro hp)
      simpa [Writable] using this
  · obtain ⟨hT, hr, hw⟩ := hs
    have hm := (Sys.step_move hst).2
    exact ⟨hT.move hm, hr.move hT discipline_nread knows_keeps trivial
      (mayLeave_nread hT.sided hCa) hm,
      hw.move hT discipline_nwrite knows_keeps trivial (mayLeave_nwrite s a.1) hm⟩

def writerEnters (n : ℤ) : List (Bool × Choice Chan Place) :=
  List.replicate 3 (false, .go) ++
    [(false, .act (.allocproc 0)), (false, .go), (false, .go), (false, .act (.kalloc 0 true)),
      (false, .act (.copyuvm 0 true))] ++
    List.replicate NOFILE (false, .act (.filedup 0)) ++
    [(false, .act (.run 0)), (false, .go), (false, .go)] ++
    List.replicate 4 (true, .go) ++ [(true, .call (.write (fun _ => 0) n))]

/-- `initproc` sleeps in `piperead`, and the child stores a byte. -/
def writeByte : List (Bool × Choice Chan Place) :=
  writerEnters 1 ++ (false, .call (.read 1)) :: List.replicate 71 (false, .go) ++
    List.replicate 7 (true, .go)

theorem pipe_awake_byte : ∃ s : Sys Bool Chan Place Shared,
    Run.exec (Sys.step pipeClient false) (Sys.boot (.init fun _ => 0)) writeByte = some s ∧
      s.data.pipe.empty = false ∧ Awake s := by
  have hrun : (Run.exec (Sys.step pipeClient false) (Sys.boot (.init fun _ => 0)) writeByte).map
      (fun s => (s.lk, s.data.pipe.empty)) = some (none, false) := by decide +kernel
  obtain ⟨s, hs, heq⟩ := Option.map_eq_some_iff.mp hrun
  exact ⟨s, hs, congrArg Prod.snd heq,
    pipe_awake (by decide +kernel) hs (congrArg Prod.fst heq)⟩

/-- `initproc` kills the child and sleeps in `piperead`; the child fills the ring and gives up. -/
def killedWrite : List (Bool × Choice Chan Place) :=
  writerEnters 513 ++ [(false, .act (.kill 0 2)), (false, .go), (false, .go),
    (false, .call (.read 1))] ++
    List.replicate 6 (false, .go) ++ List.replicate 515 (true, .go)

theorem pipe_sleeps : ∃ s : Sys Bool Chan Place Shared,
    Run.exec (Sys.step pipeClient false) (Sys.boot (.init fun _ => 0)) killedWrite = some s ∧
      s.lk = none ∧ s.Asleep .nread 0 ∧ s.data.pipe.empty = false ∧ ¬Awake s := by
  have hrun : (Run.exec (Sys.step pipeClient false) (Sys.boot (.init fun _ => 0)) killedWrite).map
      (fun s => (s.lk, (s.tab.procs 0).state, (s.tab.procs 0).chan, s.data.pipe.empty)) =
      some (none, .sleeping, some (.other .nread), false) := by decide +kernel
  obtain ⟨s, hs, heq⟩ := Option.map_eq_some_iff.mp hrun
  simp only [Prod.mk.injEq] at heq
  obtain ⟨hlk, hstate, hchan, hempty⟩ := heq
  refine ⟨s, hs, hlk, ⟨hstate, hchan⟩, hempty, fun ha => ?_⟩
  exact nomatch hempty.symm.trans (ha.nread 0 ⟨hstate, hchan⟩).1

/-- The pipe is a queue too when its callers are processes that sleep, are woken, killed and
switched between CPUs: one thread at a time is in its code, on the CPU that has its lock, what is
stored is delivered in order or still in the ring, whole reads have returned what was delivered, and
a `pipewrite` that returned `n` has stored its `n` bytes. -/
theorem pipe_queue_on_cpus {data : Fin PIPESIZE → UInt8} {s : Sys C Chan Place Shared}
    (h : Run.Reaches (Sys.step pipeClient false) (Sys.boot (.init data)) s) :
    (∀ p, (s.pc p).inside = true → ∃ c, s.mode c = .run p ∧ s.lk = some c) ∧
      s.data.stored.map Prod.snd = s.data.delivered ++ s.data.pipe.ring ∧
      s.data.pipe.ring.length ≤ PIPESIZE ∧
      (s.lk = none → s.data.delivered = s.data.readBytes) ∧
      ∀ id addr n, Ret.wrote id addr n n ∈ s.data.returned →
        s.data.bytesOf id = (List.range n.toNat).map addr := by
  have hT : s.Threads pipeClient false (.init data) :=
    h.invariant (fun s a t hs hst => hs.move (Sys.step_move hst).2) (Sys.boot_threads ..)
  have hinside := fun p hp => hT.sound.codeLock_of_inside hT.sided (q := p) hp
  obtain ⟨m, hm, habs⟩ := hT.monitor
  have hq := queue_of_reaches hm
  rw [← habs.data]
  refine ⟨hinside, hq.fifo, ?_, fun hlk => (reads_keeps.reaches (by rfl) hm).1 ?_,
    (writes_of_reaches hm).done⟩
  · exact (CounterRing.length_items ..).trans_le hq.bound
  · refine Option.eq_none_iff_forall_ne_some.mpr fun p hp => ?_
    obtain ⟨c, -, hc⟩ := hinside p ((habs.owner p).mp hp)
    exact nomatch hlk.symm.trans hc

/-- The byte of the child is in the ring. -/
theorem pipe_queue_on_cpus_byte : ∃ s : Sys Bool Chan Place Shared,
    Run.exec (Sys.step pipeClient false) (Sys.boot (.init fun _ => 0)) writeByte = some s ∧
      s.data.stored.length = 1 ∧
      s.data.delivered ++ s.data.pipe.ring = s.data.stored.map Prod.snd := by
  have hrun : (Run.exec (Sys.step pipeClient false) (Sys.boot (.init fun _ => 0)) writeByte).map
      (fun s => s.data.stored.length) = some 1 := by decide +kernel
  obtain ⟨s, hs, heq⟩ := Option.map_eq_some_iff.mp hrun
  exact ⟨s, hs, heq, (pipe_queue_on_cpus ⟨_, hs⟩).2.1.symm⟩

end Xv6.Pipes
