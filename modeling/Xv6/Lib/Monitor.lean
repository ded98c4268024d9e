import Xv6.Lib.Run
import Mathlib.Logic.Function.Basic

/-! Code that runs under one lock, by any number of threads: a thread enters, computes on the
shared data, wakes or sleeps on channels, and leaves. The sections between two releases of the
lock are atomic, and a sleeping thread may wake at any time. -/
namespace Monitor

variable {ι K τ σ : Type*}

/-- What a thread in the section does next. -/
inductive Op (K τ σ : Type*) where
  | compute (t : τ) (d : σ)
  | wakeup (k : K) (t : τ)
  | sleep (k : K) (t : τ)
  | leave (d : σ)

/-- The code of the sections: where a call may start, and what it does at each place, by a flag
from outside and the shared data. -/
structure Client (K τ σ : Type*) where
  start : τ → Bool
  next : τ → Bool → σ → Op K τ σ

namespace Op

def data (d : σ) : Op K τ σ → σ
  | compute _ d' => d'
  | wakeup _ _ => d
  | sleep _ _ => d
  | leave d' => d'

def place : Op K τ σ → Option τ
  | compute t _ => some t
  | wakeup _ t => some t
  | sleep _ t => some t
  | leave _ => none

def keeps : Op K τ σ → Bool
  | compute _ _ => true
  | wakeup _ _ => true
  | sleep _ _ => false
  | leave _ => false

end Op

structure State (ι τ σ : Type*) where
  data : σ
  owner : Option ι
  place : ι → Option τ

inductive Act (ι τ : Type*) where
  | call (i : ι) (t : τ)
  | enter (i : ι)
  | next (i : ι) (flag : Bool)

variable [DecidableEq ι] (P : Client K τ σ)

def step (s : State ι τ σ) : Act ι τ → Option (State ι τ σ)
  | .call i t =>
    if s.place i = none ∧ P.start t then some { s with place := Function.update s.place i (some t) }
    else none
  | .enter i =>
    if (s.place i).isSome ∧ s.owner = none then some { s with owner := some i } else none
  | .next i flag =>
    match s.place i with
    | none => none
    | some t =>
      if s.owner = some i then
        let op := P.next t flag s.data
        some {
          data := op.data s.data
          owner := if op.keeps then some i else none
          place := Function.update s.place i op.place }
      else none

theorem step_next {s : State ι τ σ} {i : ι} {t : τ} (flag : Bool) (ht : s.place i = some t)
    (hi : s.owner = some i) : step P s (.next i flag) = some {
      data := (P.next t flag s.data).data s.data
      owner := if (P.next t flag s.data).keeps then some i else none
      place := Function.update s.place i (P.next t flag s.data).place } := by
  simp only [step, ht, hi, if_true]

def init (d : σ) : State ι τ σ := ⟨d, none, fun _ => none⟩

theorem invariant {I : σ → Option ι → (ι → Option τ) → Prop} {d : σ}
    (hinit : I d none fun _ => none)
    (hcall : ∀ d o l i t, I d o l → l i = none → P.start t = true →
      I d o (Function.update l i (some t)))
    (henter : ∀ d l i t, I d none l → l i = some t → I d (some i) l)
    (hnext : ∀ d l i t flag, I d (some i) l → l i = some t →
      I ((P.next t flag d).data d) (if (P.next t flag d).keeps then some i else none)
        (Function.update l i (P.next t flag d).place))
    {s : State ι τ σ} (h : Run.Reaches (step P) (init d) s) : I s.data s.owner s.place := by
  refine h.invariant (I := fun s => I s.data s.owner s.place) (fun s a t hs hst => ?_) hinit
  cases a with
  | call i x =>
    simp only [step, Option.ite_none_right_eq_some, Option.some.injEq] at hst
    obtain ⟨⟨hi, hx⟩, rfl⟩ := hst
    exact hcall _ _ _ i x hs hi hx
  | enter i =>
    simp only [step, Option.ite_none_right_eq_some, Option.some.injEq] at hst
    obtain ⟨⟨hi, ho⟩, rfl⟩ := hst
    obtain ⟨x, hx⟩ := Option.isSome_iff_exists.mp hi
    exact henter _ _ i x (ho ▸ hs) hx
  | next i flag =>
    simp only [step] at hst
    split at hst
    case h_1 => cases hst
    case h_2 x hx =>
      simp only [Option.ite_none_right_eq_some, Option.some.injEq] at hst
      obtain ⟨ho, rfl⟩ := hst
      exact hnext _ _ i x flag (ho ▸ hs) hx

/-- The rule of monitors: the data meet `I` while the lock is free, and `J` at each place of a
section. -/
structure Keeps (I : σ → Prop) (J : τ → σ → Prop) : Prop where
  start : ∀ {t : τ} {d : σ}, P.start t = true → I d → J t d
  compute : ∀ {t t' : τ} {b : Bool} {d d' : σ}, J t d → P.next t b d = .compute t' d' → J t' d'
  wakeup : ∀ {t t' : τ} {b : Bool} {d : σ} {k : K}, J t d → P.next t b d = .wakeup k t' → J t' d
  sleep : ∀ {t t' : τ} {b : Bool} {d : σ} {k : K}, J t d → P.next t b d = .sleep k t' →
    I d ∧ ∀ d', I d' → J t' d'
  leave : ∀ {t : τ} {b : Bool} {d d' : σ}, J t d → P.next t b d = .leave d' → I d'

variable {P}

theorem Keeps.next {I : σ → Prop} {J : τ → σ → Prop} (hJ : Keeps P I J) {t : τ} {b : Bool} {d : σ}
    (ht : J t d) :
    (∀ u, (P.next t b d).place = some u → (P.next t b d).keeps = true →
      J u ((P.next t b d).data d)) ∧
    ((P.next t b d).keeps = false → I ((P.next t b d).data d) ∧
      ∀ u, (P.next t b d).place = some u → ∀ d', I d' → J u d') := by
  cases hop : P.next t b d with
  | compute t' d' => exact ⟨fun u hu _ => Option.some.inj hu ▸ hJ.compute ht hop, nofun⟩
  | wakeup k t' => exact ⟨fun u hu _ => Option.some.inj hu ▸ hJ.wakeup ht hop, nofun⟩
  | sleep k t' =>
    exact ⟨nofun, fun _ =>
      ⟨(hJ.sleep ht hop).1, fun u hu => Option.some.inj hu ▸ (hJ.sleep ht hop).2⟩⟩
  | leave d' => exact ⟨nofun, fun _ => ⟨hJ.leave ht hop, nofun⟩⟩

theorem Keeps.reaches {I : σ → Prop} {J : τ → σ → Prop} (hJ : Keeps P I J) {d : σ} (hd : I d)
    {s : State ι τ σ} (h : Run.Reaches (step P) (init d) s) :
    (s.owner = none → I s.data) ∧
      ∀ i t, s.owner = some i → s.place i = some t → J t s.data := by
  have hinv := invariant P (d := d) (s := s) (I := fun d o l => (o = none → I d) ∧
    (∀ i, o = some i → (l i).isSome) ∧
    ∀ i t, l i = some t → if o = some i then J t d else ∀ d', I d' → J t d') ?_ ?_ ?_ ?_ h
  · refine ⟨hinv.1, fun i t hi ht => ?_⟩
    simpa only [hi, if_true] using hinv.2.2 i t ht
  · exact ⟨fun _ => hd, nofun, nofun⟩
  · intro d o l i t ⟨hfree, hin, hI⟩ hi ht
    have hstart : ∀ d', I d' → J t d' := fun d' => hJ.start ht
    refine ⟨hfree, fun j hj => ?_, fun j u hu => ?_⟩ <;> rw [Function.update_apply] at *
    · have := hin j hj
      grind
    · have := hI j u
      have := hin i
      grind
  · intro d l i t ⟨hfree, _, hI⟩ hi
    refine ⟨nofun, fun j hj => ?_, fun j u hu => ?_⟩
    · cases hj
      rw [hi]
      rfl
    · have := hI j u hu
      have := hfree rfl
      grind
  · intro d l i t b ⟨_, _, hI⟩ hi
    have ht := hI i t hi
    rw [if_pos rfl] at ht
    obtain ⟨hkeep, hgive⟩ := hJ.next (b := b) ht
    have hplace : (P.next t b d).keeps = true → (P.next t b d).place.isSome := by
      cases P.next t b d <;> simp [Op.keeps, Op.place]
    refine ⟨by grind, fun j hj => ?_, fun j u hu => ?_⟩ <;> rw [Function.update_apply] at *
    · grind
    · have := hI j u
      grind

/-- The two operations differ in the data only, which are related. -/
structure Op.Agrees {σ' : Type*} (R : σ → σ' → Prop) (d : σ) (d' : σ') (op : Op K τ σ)
    (op' : Op K τ σ') : Prop where
  data : R (op.data d) (op'.data d')
  place : op.place = op'.place
  keeps : op.keeps = op'.keeps

theorem simulates {σ' : Type*} {P' : Client K τ σ'} {R : σ → σ' → Prop}
    (hstart : P.start = P'.start)
    (hnext : ∀ t b d d', R d d' → (P.next t b d).Agrees R d d' (P'.next t b d')) {d : σ} {d' : σ'}
    (hd : R d d') {as : List (Act ι τ)} {s : State ι τ σ}
    (h : Run.exec (step P) (init d) as = some s) :
    ∃ t, Run.exec (step P') (init d') as = some t ∧ R s.data t.data ∧ t.owner = s.owner ∧
      t.place = s.place := by
  suffices hgen : ∀ (as : List (Act ι τ)) (u s : State ι τ σ) (u' : State ι τ σ'),
      Run.exec (step P) u as = some s → R u.data u'.data → u'.owner = u.owner → u'.place = u.place →
      ∃ t, Run.exec (step P') u' as = some t ∧ R s.data t.data ∧ t.owner = s.owner ∧
        t.place = s.place from hgen as _ s (init d') h hd rfl rfl
  intro as
  induction as with
  | nil =>
    intro u s u' h hR ho hp
    obtain rfl := Option.some.inj h
    exact ⟨u', rfl, hR, ho, hp⟩
  | cons a as ih =>
    intro u s u' h hR ho hp
    obtain ⟨v, hv, h⟩ := Run.exec_cons h
    suffices hstep : ∃ v', step P' u' a = some v' ∧ R v.data v'.data ∧ v'.owner = v.owner ∧
        v'.place = v.place by
      obtain ⟨v', hv', hR', ho', hp'⟩ := hstep
      obtain ⟨t, ht, hrest⟩ := ih v s v' h hR' ho' hp'
      exact ⟨t, by rw [Run.exec, hv']; exact ht, hrest⟩
    cases a with
    | call i x =>
      simp only [step, Option.ite_none_right_eq_some, Option.some.injEq] at hv
      obtain ⟨⟨hi, hx⟩, rfl⟩ := hv
      exact ⟨_, if_pos ⟨hp ▸ hi, hstart ▸ hx⟩, hR, ho, by rw [hp]⟩
    | enter i =>
      simp only [step, Option.ite_none_right_eq_some, Option.some.injEq] at hv
      obtain ⟨⟨hi, hx⟩, rfl⟩ := hv
      exact ⟨_, if_pos ⟨hp ▸ hi, ho ▸ hx⟩, hR, rfl, hp⟩
    | next i flag =>
      cases hi : u.place i with
      | none =>
        rw [step, hi] at hv
        cases hv
      | some x =>
        simp only [step, hi, Option.ite_none_right_eq_some, Option.some.injEq] at hv
        obtain ⟨hown, rfl⟩ := hv
        have hop := hnext x flag _ _ hR
        refine ⟨_, step_next P' flag (hp ▸ hi) (ho ▸ hown), hop.data, ?_, ?_⟩
        · rw [hop.keeps]
        · rw [hop.place, hp]

end Monitor
