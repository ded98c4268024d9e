import Xv6.Pipe.Code

/-! A pipe is a queue of bytes: what `pipewrite` stores comes out of `piperead` in order, across the
wrap-around of the counters. -/
namespace Xv6.Pipes

open Monitor

namespace Pipe

def count (p : Pipe) : ℕ := (p.nwrite - p.nread).toNat

theorem count_eq (p : Pipe) :
    p.count = (2 ^ 32 - p.nread.toNat + p.nwrite.toNat) % 2 ^ 32 := by
  rw [count, UInt32.toNat_sub]

theorem nwrite_eq (p : Pipe) : p.nwrite.toNat = (p.nread.toNat + p.count) % 2 ^ 32 := by
  rw [count_eq]
  have h1 := p.nwrite.toNat_lt
  have h2 := p.nread.toNat_lt
  omega

theorem full_iff (p : Pipe) : p.full = true ↔ p.count = PIPESIZE := by
  rw [full, beq_iff_eq, ← UInt32.toNat_inj, UInt32.toNat_add, count_eq]
  have h1 := p.nwrite.toNat_lt
  have h2 := p.nread.toNat_lt
  have h3 : PIPESIZE.toUInt32.toNat = PIPESIZE := rfl
  have h4 : PIPESIZE = 512 := rfl
  omega

theorem empty_iff (p : Pipe) : p.empty = true ↔ p.count = 0 := by
  rw [empty, beq_iff_eq, ← UInt32.toNat_inj, count_eq]
  have h1 := p.nwrite.toNat_lt
  have h2 := p.nread.toNat_lt
  omega

theorem nwrite_push (p : Pipe) (b : UInt8) :
    (p.push b).nwrite.toNat = (p.nwrite.toNat + 1) % 2 ^ 32 :=
  UInt32.toNat_add ..

theorem nread_pop (p : Pipe) : p.pop.nread.toNat = (p.nread.toNat + 1) % 2 ^ 32 :=
  UInt32.toNat_add ..

theorem count_push (p : Pipe) (b : UInt8) (h : p.count < PIPESIZE) :
    (p.push b).count = p.count + 1 := by
  rw [count_eq, nwrite_push]
  rw [count_eq] at *
  have h2 := p.nread.toNat_lt
  have h3 : (p.push b).nread.toNat = p.nread.toNat := rfl
  have h4 : PIPESIZE = 512 := rfl
  omega

theorem count_pop (p : Pipe) (h : 0 < p.count) : p.pop.count + 1 = p.count := by
  rw [count_eq, nread_pop]
  rw [count_eq] at *
  have h2 := p.nread.toNat_lt
  have h3 : p.pop.nwrite.toNat = p.nwrite.toNat := rfl
  omega

theorem ring_eq (p : Pipe) : p.ring = CounterRing.items p.data p.nread.toNat p.count := rfl

theorem pipesize_dvd : PIPESIZE ∣ 2 ^ 32 := ⟨2 ^ 23, rfl⟩

theorem ring_push (p : Pipe) (b : UInt8) (h : p.count < PIPESIZE) :
    (p.push b).ring = p.ring ++ [b] := by
  rw [ring_eq, count_push p b h]
  change CounterRing.items (Function.update p.data (Fin.ofNat PIPESIZE p.nwrite.toNat) b) _ _ = _
  rw [nwrite_eq, CounterRing.ofNat_mod_of_dvd pipesize_dvd]
  exact CounterRing.items_push p.data h b

theorem ring_pop (p : Pipe) (h : 0 < p.count) : p.ring = p.front :: p.pop.ring := by
  rw [ring_eq, ← count_pop p h, CounterRing.items_succ, ring_eq, nread_pop,
    CounterRing.items_mod pipesize_dvd]
  rfl

theorem ring_close (p : Pipe) (writable : Bool) : (p.close writable).ring = p.ring := by
  cases writable <;> rfl

theorem count_close (p : Pipe) (writable : Bool) : (p.close writable).count = p.count := by
  cases writable <;> rfl

end Pipe

/-- Every stored byte has been delivered or is in the ring, in order. -/
structure Shared.Queue (d : Shared) : Prop where
  bound : d.pipe.count ≤ PIPESIZE
  fifo : d.stored.map Prod.snd = d.delivered ++ d.pipe.ring

theorem Does.queue {killed : Bool} {d : Shared} {x : Place} {op : Op Chan Place Shared}
    (h : Does killed d x op) (hq : d.Queue) : (op.data d).Queue := by
  cases h with
  | @store id addr _ i _ _ hf =>
    have hlt : d.pipe.count < PIPESIZE := by
      have := d.pipe.full_iff
      have := hq.bound
      grind
    refine ⟨?_, ?_⟩
    · change (d.pipe.push _).count ≤ PIPESIZE
      rw [Pipe.count_push _ _ hlt]
      omega
    · change (d.stored ++ [(id, addr i)]).map Prod.snd = d.delivered ++ (d.pipe.push (addr i)).ring
      rw [List.map_append, hq.fifo, Pipe.ring_push _ _ hlt, List.append_assoc]
      rfl
  | deliver he =>
    have hpos : 0 < d.pipe.count := by
      have := d.pipe.empty_iff
      grind
    refine ⟨?_, ?_⟩
    · have := hq.bound
      have := d.pipe.count_pop hpos
      change d.pipe.pop.count ≤ PIPESIZE
      omega
    · change d.stored.map Prod.snd = d.delivered ++ [d.pipe.front] ++ d.pipe.pop.ring
      rw [hq.fifo, Pipe.ring_pop _ hpos, List.append_assoc]
      rfl
  | @close writable =>
    refine ⟨?_, ?_⟩
    · exact (d.pipe.count_close writable).trans_le hq.bound
    · exact hq.fifo.trans (congrArg _ (d.pipe.ring_close writable).symm)
  | closed =>
    change d.release.Queue
    rw [Shared.release]
    split
    · exact ⟨hq.bound, hq.fifo⟩
    · exact hq
  | _ => exact ⟨hq.bound, hq.fifo⟩

def Ret.bytes : Ret → List UInt8
  | .wrote _ _ _ _ => []
  | .read _ buf _ => buf

def Shared.readBytes (d : Shared) : List UInt8 := (d.returned.map Ret.bytes).flatten

theorem Shared.readBytes_ret (d : Shared) (r : Ret) :
    (d.ret r).readBytes = d.readBytes ++ r.bytes := by
  rw [readBytes, ret, List.map_append, List.flatten_append, readBytes]
  simp

/-- What a call knows about the bytes delivered, in its section. -/
def Place.Reads (d : Shared) : Place → Prop
  | .reading _ buf => d.delivered = d.readBytes ++ buf ∧
      (buf ≠ [] ∨ d.pipe.empty = false ∨ d.pipe.writeopen = false)
  | .readDone n buf => d.delivered = d.readBytes ++ buf ∧
      (buf = [] → 0 < n → d.pipe.empty = true ∧ d.pipe.writeopen = false)
  | _ => d.delivered = d.readBytes

theorem reads_keeps :
    Monitor.Keeps pipeClient (fun d => d.delivered = d.readBytes) (fun x d => x.Reads d) where
  start {x d} hx hd := by
    cases x <;> first | exact hd | cases hx
  compute {x y b d e} hJ hop := by
    cases does_of_next hop with
    | write => exact hJ
    | store _ _ => exact hJ
    | readStart he => exact ⟨.trans hJ (List.append_nil _).symm, .inr he⟩
    | deliver _ =>
      refine ⟨?_, .inl (by simp)⟩
      rw [← List.append_assoc]
      exact congrArg (· ++ _) hJ.1
    | close => exact hJ
  wakeup {x y b d k} hJ hop := by
    cases does_of_next hop with
    | block _ _ _ => exact hJ
    | finish _ => exact hJ
    | @readStop n buf hstop =>
      refine ⟨hJ.1, fun hb hn => ?_⟩
      have := hJ.2
      rw [hb, List.length_nil] at hstop
      grind
    | closing => exact hJ
  sleep {x y b d k} hJ hop := by
    cases does_of_next hop with
    | blocked => exact ⟨hJ, fun d' hd' => hd'⟩
    | readSleep _ _ => exact ⟨hJ, fun d' hd' => hd'⟩
  leave {x b d e} hJ hop := by
    have hret : ∀ {r : Ret}, d.delivered = d.readBytes ++ r.bytes →
        (d.ret r).delivered = (d.ret r).readBytes := fun hr => hr.trans (d.readBytes_ret _).symm
    cases does_of_next hop with
    | giveUp _ _ _ => exact hret (.trans hJ (List.append_nil _).symm)
    | written => exact hret (.trans hJ (List.append_nil _).symm)
    | readKilled => exact hret (.trans hJ (List.append_nil _).symm)
    | readDone => exact hret hJ.1
    | closed =>
      change d.release.delivered = d.release.readBytes
      rw [Shared.release]
      split <;> exact hJ

def Shared.bytesOf (d : Shared) (id : ℕ) : List UInt8 :=
  (d.stored.filter fun e => e.1 = id).map Prod.snd

theorem Shared.bytesOf_store (d : Shared) (id : ℕ) (b : UInt8) (id' : ℕ) :
    (d.store id b).bytesOf id' = if id' = id then d.bytesOf id' ++ [b] else d.bytesOf id' := by
  rw [bytesOf, store, List.filter_append, List.map_append, bytesOf]
  by_cases h : id' = id
  · simp [h]
  · simp [h, Ne.symm h]

def Shared.Done (d : Shared) (id : ℕ) : Prop := ∃ addr n r, Ret.wrote id addr n r ∈ d.returned

def Place.id : Place → Option ℕ
  | .writing id _ _ _ _ => some id
  | .blocked id _ _ _ => some id
  | .written id _ _ => some id
  | _ => none

def Place.Wrote (d : Shared) : Place → Prop
  | .writing id addr n i _ => i ≤ n.toNat ∧ d.bytesOf id = (List.range i).map addr
  | .blocked id addr n i => i ≤ n.toNat ∧ d.bytesOf id = (List.range i).map addr
  | .written id addr n => d.bytesOf id = (List.range n.toNat).map addr
  | _ => True

/-- The calls of `pipewrite`: those on their way have numbers of their own, and each has stored
its bytes. -/
structure Writes {ι : Type*} (d : Shared) (l : ι → Option Place) : Prop where
  wrote : ∀ i x, l i = some x → x.Wrote d
  live : ∀ i x id, l i = some x → x.id = some id → id < d.calls ∧ ¬d.Done id
  unique : ∀ i j x y id, l i = some x → l j = some y → x.id = some id → y.id = some id → i = j
  tags : ∀ id, d.calls ≤ id → d.bytesOf id = []
  ids : ∀ id, d.Done id → id < d.calls
  done : ∀ id addr n, Ret.wrote id addr n n ∈ d.returned →
    d.bytesOf id = (List.range n.toNat).map addr

section Writes

variable {ι : Type*} [DecidableEq ι] {d e : Shared} {l : ι → Option Place} {i : ι} {x : Place}

theorem Writes.keep (h : Writes d l) {y : Option Place}
    (hstored : ∀ id, e.bytesOf id = d.bytesOf id) (hcalls : e.calls = d.calls)
    (hret : ∀ id addr n r, Ret.wrote id addr n r ∈ e.returned ↔ Ret.wrote id addr n r ∈ d.returned)
    (hy : ∀ z, y = some z → z.Wrote e ∧ ∀ id, z.id = some id → ∃ x, l i = some x ∧ x.id = some id) :
    Writes e (Function.update l i y) := by
  have hwrote : ∀ z : Place, z.Wrote e ↔ z.Wrote d := by
    intro z
    cases z <;> simp only [Place.Wrote, hstored]
  have hdone : ∀ id, e.Done id ↔ d.Done id := fun id => by simp only [Shared.Done, hret]
  have hup : ∀ j, Function.update l i y j = if j = i then y else l j :=
    fun j => Function.update_apply ..
  refine ⟨fun j z hz => ?_, fun j z id hz hid => ?_, fun j k z w id hz hw hzi hwi => ?_,
    fun id hid => ?_, fun id hid => ?_, fun id addr n hr => ?_⟩
  · have := h.wrote j z
    grind
  · have := h.live j z id
    have := fun x => h.live i x id
    grind
  · have := h.unique j k z w id
    have := fun x => h.unique i k x w id
    have := fun x => h.unique j i z x id
    grind
  · rw [hstored]
    exact h.tags id (hcalls ▸ hid)
  · rw [hcalls]
    exact h.ids id ((hdone id).mp hid)
  · rw [hstored]
    exact h.done id addr n ((hret ..).mp hr)

theorem Writes.write (h : Writes d l) (addr : ℕ → UInt8) (n : ℤ) :
    Writes { d with calls := d.calls + 1 }
    (Function.update l i (some (.writing d.calls addr n 0 0))) := by
  have hnew := h.tags d.calls le_rfl
  have hno : ¬d.Done d.calls := fun hd => lt_irrefl _ (h.ids _ hd)
  have hup : ∀ j, Function.update l i (some (.writing d.calls addr n 0 0)) j =
      if j = i then some (.writing d.calls addr n 0 0) else l j := fun j => Function.update_apply ..
  have hid : (Place.writing d.calls addr n 0 0).id = some d.calls := rfl
  refine ⟨fun j z hz => ?_, fun j z id hz hzi => ?_, fun j k z w id hz hw hzi hwi => ?_,
    fun id hid => h.tags id (Nat.le_of_succ_le hid), fun id hd => Nat.lt_succ_of_lt (h.ids id hd),
    h.done⟩
  · rw [hup] at hz
    split at hz
    · cases hz
      exact ⟨Nat.zero_le _, hnew⟩
    · have := h.wrote j z hz
      cases z <;> exact this
  · have := h.live j z id
    change id < d.calls + 1 ∧ ¬d.Done id
    grind
  · have := h.unique j k z w id
    have := h.live j z id
    have := h.live k w id
    grind

theorem Writes.store (h : Writes d l) {id : ℕ} {addr : ℕ → UInt8} {n : ℤ} {k told : ℕ}
    (hi : l i = some (.writing id addr n k told)) (hk : k < n) : Writes (d.store id (addr k))
      (Function.update l i (some (.writing id addr n (k + 1) told))) := by
  have hup : ∀ j, Function.update l i (some (.writing id addr n (k + 1) told)) j =
      if j = i then some (.writing id addr n (k + 1) told) else l j :=
    fun j => Function.update_apply ..
  have hbytes := d.bytesOf_store id (addr k)
  have hself : ∀ k, (Place.writing id addr n k told).id = some id := fun _ => rfl
  obtain ⟨hlt, hno⟩ := h.live i _ id hi (hself k)
  refine ⟨fun j z hz => ?_, fun j z id' hz hzi => ?_, fun j m z w id' hz hw hzi hwi => ?_,
    fun id' hid => ?_, h.ids, fun id' addr' n' hr => ?_⟩
  · rw [hup] at hz
    split at hz
    · cases hz
      refine ⟨by omega, ?_⟩
      rw [hbytes, if_pos rfl, (h.wrote i _ hi).2, List.range_succ, List.map_append]
      rfl
    case isFalse hji =>
      have hne : ∀ id', z.id = some id' → id' ≠ id := by
        rintro id' hid rfl
        exact hji (h.unique j i z _ _ hz hi hid (hself k))
      have hold := h.wrote j z hz
      cases z with
      | writing id' _ _ _ _ =>
        rw [Place.Wrote, hbytes, if_neg (hne id' rfl)]
        exact hold
      | blocked id' _ _ _ =>
        rw [Place.Wrote, hbytes, if_neg (hne id' rfl)]
        exact hold
      | written id' _ _ =>
        rw [Place.Wrote, hbytes, if_neg (hne id' rfl)]
        exact hold
      | _ => exact trivial
  · have := h.live j z id'
    change id' < d.calls ∧ ¬d.Done id'
    grind
  · have := h.unique j m z w id'
    have := h.unique i m _ w id hi
    have := h.unique j i z (.writing id addr n k told) id
    grind
  · have hid : d.calls ≤ id' := hid
    rw [hbytes, if_neg (by omega)]
    exact h.tags id' hid
  · rw [hbytes, if_neg (by rintro rfl; exact hno ⟨_, _, _, hr⟩)]
    exact h.done id' addr' n' hr

theorem Writes.ret (h : Writes d l) {id : ℕ} {addr : ℕ → UInt8} {n r : ℤ}
    (hi : l i = some x) (hx : x.id = some id)
    (hr : r = n → d.bytesOf id = (List.range n.toNat).map addr) :
    Writes (d.ret (.wrote id addr n r)) (Function.update l i none) := by
  have hup : ∀ j, Function.update l i none j = if j = i then none else l j :=
    fun j => Function.update_apply ..
  have hmem : ∀ y, y ∈ (d.ret (.wrote id addr n r)).returned ↔
      y ∈ d.returned ∨ y = .wrote id addr n r := fun y => by simp [Shared.ret]
  have hdone : ∀ id', (d.ret (.wrote id addr n r)).Done id' ↔ d.Done id' ∨ id' = id := by
    intro id'
    simp only [Shared.Done, hmem, Ret.wrote.injEq]
    grind
  refine ⟨fun j z hz => ?_, fun j z id' hz hzi => ?_, fun j k z w id' hz hw hzi hwi => ?_,
    h.tags, fun id' hid => ?_, fun id' addr' n' hm => ?_⟩
  · have := h.wrote j z
    have hz : l j = some z := by grind
    have := h.wrote j z hz
    cases z <;> exact this
  · have := h.live j z id'
    have := h.unique j i z x id
    change id' < d.calls ∧ _
    grind
  · have := h.unique j k z w id'
    grind
  · have := h.ids id'
    have := h.live i x id hi hx
    change id' < d.calls
    grind
  · change d.bytesOf id' = _
    have := h.done id' addr' n'
    rw [hmem] at hm
    grind

theorem Does.writes {killed : Bool} {op : Op Chan Place Shared} (hd : Does killed d x op)
    (h : Writes d l) (hi : l i = some x) : Writes (op.data d) (Function.update l i op.place) := by
  have hleave : ∀ {e : Shared}, e.stored = d.stored → e.calls = d.calls →
      (∀ id addr n r, Ret.wrote id addr n r ∈ e.returned ↔ Ret.wrote id addr n r ∈ d.returned) →
      Writes e (Function.update l i none) := fun hs hc hr =>
    h.keep (fun id => by rw [Shared.bytesOf, hs, Shared.bytesOf]) hc hr nofun
  have hgo : ∀ {e : Shared} {y : Place}, e.stored = d.stored → e.calls = d.calls →
      e.returned = d.returned → y.Wrote e → y.id = none ∨ y.id = x.id →
      Writes e (Function.update l i (some y)) := fun hs hc hr hy hid =>
    h.keep (fun id => by rw [Shared.bytesOf, hs, Shared.bytesOf]) hc (fun _ _ _ _ => by rw [hr])
      fun z hz => Option.some.inj hz ▸ ⟨hy, fun _ hz' => ⟨x, hi, by grind⟩⟩
  have hx := h.wrote i x hi
  cases hd with
  | @write addr n => exact h.write addr n
  | giveUp hk _ _ => exact h.ret hi rfl fun hn => by omega
  | block hk _ _ => exact hgo rfl rfl rfl hx (.inr rfl)
  | store hk _ => exact h.store hi hk
  | @finish _ _ n k _ hk =>
    obtain rfl : k = n.toNat := by
      have := hx.1
      omega
    exact hgo rfl rfl rfl hx.2 (.inr rfl)
  | blocked => exact hgo rfl rfl rfl hx (.inr rfl)
  | written => exact h.ret hi rfl fun _ => hx
  | readKilled => exact hleave rfl rfl fun _ _ _ _ => by simp [Op.data, Shared.ret]
  | readSleep _ _ => exact hgo rfl rfl rfl trivial (.inl rfl)
  | readStart _ => exact hgo rfl rfl rfl trivial (.inl rfl)
  | deliver _ => exact hgo rfl rfl rfl trivial (.inl rfl)
  | readStop _ => exact hgo rfl rfl rfl trivial (.inl rfl)
  | readDone => exact hleave rfl rfl fun _ _ _ _ => by simp [Op.data, Shared.ret]
  | close => exact hgo rfl rfl rfl trivial (.inl rfl)
  | closing => exact hgo rfl rfl rfl trivial (.inl rfl)
  | closed =>
    have hrel : d.release.stored = d.stored ∧ d.release.calls = d.calls ∧
        d.release.returned = d.returned := by
      rw [Shared.release]
      split <;> exact ⟨rfl, rfl, rfl⟩
    exact hleave hrel.1 hrel.2.1 fun _ _ _ _ => by rw [Op.data, hrel.2.2]

end Writes

theorem Does.eof {killed : Bool} {d : Shared} {x : Place} {op : Op Chan Place Shared}
    (hd : Does killed d x op) (hx : x.Reads d) {n : ℤ} {buf : List UInt8}
    (hret : (op.data d).returned = d.returned ++ [.read n buf 0]) (hn : 0 < n) :
    d.pipe.empty = true ∧ d.pipe.writeopen = false := by
  have hnone : (op.data d).returned ≠ d.returned := by
    rw [hret]
    simp
  have hone : ∀ {r : Ret}, (op.data d).returned = d.returned ++ [r] → r = .read n buf 0 := by
    intro r hr
    simpa using hr.symm.trans hret
  cases hd with
  | giveUp _ _ _ => exact nomatch hone rfl
  | written => exact nomatch hone rfl
  | readKilled => exact nomatch hone rfl
  | readDone =>
    have heq := hone rfl
    rw [Ret.read.injEq] at heq
    obtain ⟨rfl, rfl, hlen⟩ := heq
    exact hx.2 (by simpa using hlen) hn
  | closed =>
    refine absurd ?_ hnone
    change d.release.returned = d.returned
    rw [Shared.release]
    split <;> rfl
  | _ => exact absurd rfl hnone

section Fifo

variable {ι : Type*} [DecidableEq ι] {s : State ι Place Shared} {data : Fin PIPESIZE → UInt8}

theorem queue_of_reaches (h : Run.Reaches (step pipeClient) (init (.init data)) s) :
    s.data.Queue := by
  refine invariant pipeClient (I := fun d _ _ => d.Queue) ?_ ?_ ?_ ?_ h
  · have hcount : (Shared.init data).pipe.count = 0 := (Pipe.empty_iff _).mp rfl
    refine ⟨hcount.trans_le (Nat.zero_le _), ?_⟩
    rw [Pipe.ring_eq, hcount]
    rfl
  · exact fun _ _ _ _ _ hI _ _ => hI
  · exact fun _ _ _ _ hI _ => hI
  · exact fun d _ _ x b hI _ => (pipeNext_does x b d).queue hI

theorem writes_of_reaches (h : Run.Reaches (step pipeClient) (init (.init data)) s) :
    Writes s.data s.place := by
  refine invariant pipeClient (I := fun d _ l => Writes d l) ?_ ?_ ?_ ?_ h
  · exact ⟨nofun, nofun, nofun, fun _ _ => rfl, fun _ ⟨_, _, _, hr⟩ => (nomatch hr), nofun⟩
  · intro d _ l i x hI _ hx
    refine hI.keep (fun _ => rfl) rfl (fun _ _ _ _ => Iff.rfl) fun z hz => ?_
    cases hz
    cases x <;> first | exact ⟨trivial, nofun⟩ | cases hx
  · exact fun _ _ _ _ hI _ => hI
  · exact fun d _ _ x b hI hi => (pipeNext_does x b d).writes hI hi

/-- The pipe is a queue: what is stored is delivered in order or still in the ring, a `pipewrite`
that returns `n` has stored its `n` bytes, and `piperead` returns 0 only at the end of the file. -/
structure Fifo (s : State ι Place Shared) : Prop where
  order : s.data.stored.map Prod.snd = s.data.delivered ++ s.data.pipe.ring
  count : s.data.pipe.ring.length = (s.data.pipe.nwrite - s.data.pipe.nread).toNat
  bound : s.data.pipe.ring.length ≤ PIPESIZE
  read : s.owner = none → s.data.delivered = s.data.readBytes
  wrote : ∀ id addr n, Ret.wrote id addr n n ∈ s.data.returned →
    s.data.bytesOf id = (List.range n.toNat).map addr
  eof : ∀ a t n buf, step pipeClient s a = some t →
    t.data.returned = s.data.returned ++ [.read n buf 0] → 0 < n →
    s.data.pipe.ring = [] ∧ s.data.pipe.writeopen = false

theorem eof_of_step {a : Act ι Place} {t : State ι Place Shared}
    (hst : step pipeClient s a = some t)
    (hx : ∀ i x, s.owner = some i → s.place i = some x → x.Reads s.data) {n : ℤ} {buf : List UInt8}
    (hret : t.data.returned = s.data.returned ++ [.read n buf 0]) (hn : 0 < n) :
    s.data.pipe.empty = true ∧ s.data.pipe.writeopen = false := by
  cases a with
  | call i x =>
    simp only [step, Option.ite_none_right_eq_some, Option.some.injEq] at hst
    obtain ⟨-, rfl⟩ := hst
    simp at hret
  | enter i =>
    simp only [step, Option.ite_none_right_eq_some, Option.some.injEq] at hst
    obtain ⟨-, rfl⟩ := hst
    simp at hret
  | next i killed =>
    cases hi : s.place i with
    | none =>
      rw [step, hi] at hst
      cases hst
    | some x =>
      simp only [step, hi, Option.ite_none_right_eq_some, Option.some.injEq] at hst
      obtain ⟨ho, rfl⟩ := hst
      exact (pipeNext_does x killed s.data).eof (hx i x ho hi) hret hn

/-- A pipe is a queue of bytes, for any number of readers and writers. -/
theorem pipe_fifo (h : Run.Reaches (step pipeClient) (init (.init data)) s) : Fifo s := by
  have hq := queue_of_reaches h
  have hr := reads_keeps.reaches (by rfl) h
  have hlen : s.data.pipe.ring.length = s.data.pipe.count := CounterRing.length_items ..
  refine ⟨hq.fifo, hlen, hlen.trans_le hq.bound, hr.1, (writes_of_reaches h).done,
    fun a t n buf hst hret hn => ?_⟩
  obtain ⟨he, hw⟩ := eof_of_step hst hr.2 hret hn
  refine ⟨List.eq_nil_of_length_eq_zero ?_, hw⟩
  rw [hlen]
  exact (Pipe.empty_iff _).mp he

end Fifo

def writeThenRead : List (Act Bool Place) :=
  [.call false (.write (fun i => i.toUInt8) 3), .call true (.read 2), .enter false] ++
    List.replicate 6 (.next false false) ++ .enter true :: List.replicate 5 (.next true false)

theorem pipe_fifo_read : ∃ s : State Bool Place Shared,
    Run.exec (step pipeClient) (init (.init fun _ => 0)) writeThenRead = some s ∧
      s.data.delivered = [0, 1] ∧ s.data.pipe.ring = [2] ∧ Fifo s := by
  have hrun : (Run.exec (step pipeClient) (init (.init fun _ => 0)) writeThenRead).map
      (fun s => (s.data.delivered, s.data.pipe.ring)) = some ([0, 1], [2]) := by decide +kernel
  obtain ⟨s, hs, heq⟩ := Option.map_eq_some_iff.mp hrun
  exact ⟨s, hs, congrArg Prod.fst heq, congrArg Prod.snd heq, pipe_fifo ⟨_, hs⟩⟩

end Xv6.Pipes
