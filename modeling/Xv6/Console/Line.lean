import Xv6.Console.Input

/-! The line discipline of the console: a queue of committed characters and a line that is being
edited, and that `input` implements them. -/
namespace Xv6.Console

open Monitor

/-- The committed characters `q` and the edit line `l`, with all characters ever committed and all
that readers have taken from the queue. -/
structure Line where
  q : List UInt8
  l : List UInt8
  committed : List UInt8
  taken : List UInt8
  returned : List Ret

namespace Line

def setLine (a : Line) (l : List UInt8) : Line := { a with l := l }

def commit (a : Line) : Line :=
  { a with q := a.q ++ a.l, l := [], committed := a.committed ++ a.l }

/-- A character is typed: the new state, and whether it commits the line. -/
def type (a : Line) (c : UInt8) : Line × Bool :=
  if c = ctrlP then (a, false)
  else if c = ctrlU then (a.setLine [], false)
  else if c = ctrlH ∨ c = delete then (a.setLine a.l.dropLast, false)
  else if c ≠ 0 ∧ a.q.length + a.l.length < INPUT_BUF then
    let c := if c = carriageReturn then newline else c
    let a := a.setLine (a.l ++ [c])
    if c = newline ∨ c = ctrlD ∨ a.q.length + a.l.length = INPUT_BUF then (a.commit, true)
    else (a, false)
  else (a, false)

def take (a : Line) : Line := { a with q := a.q.tail, taken := a.taken ++ a.q.take 1 }

def ret (a : Line) (x : Ret) : Line := { a with returned := a.returned ++ [x] }

def init : Line := ⟨[], [], [], [], []⟩

end Line

def lineNext : Place → Bool → Line → Op Unit Place Line
  | .intr [], _, a => .leave a
  | .intr (c :: cs), _, a => .compute (if (a.type c).2 then .wake cs else .intr cs) (a.type c).1
  | .wake cs, _, _ => .wakeup () (.intr cs)
  | .read target dst, killed, a =>
    if target ≤ dst.length then .leave (a.ret ⟨target, dst, dst.length, .full⟩)
    else
      match a.q with
      | [] =>
        if killed then .leave (a.ret ⟨target, dst, -1, .killed⟩) else .sleep () (.read target dst)
      | c :: _ =>
        if c = ctrlD then
          .leave ((if dst = [] then a.take else a).ret ⟨target, dst, dst.length, .eof⟩)
        else if c = newline then
          .leave (a.take.ret ⟨target, dst ++ [c], dst.length + 1, .newline⟩)
        else .compute (.read target (dst ++ [c])) a.take

def lineClient : Client Unit Place Line := ⟨consoleStart, lineNext⟩

/-- The counters and the ring hold the queue and the edit line. -/
structure Refines (d : Input) (a : Line) : Prop where
  q : CounterRing.items d.buf d.r.toNat (d.w - d.r).toNat = a.q
  l : CounterRing.items d.buf d.w.toNat (d.e - d.w).toNat = a.l
  room : a.q.length + a.l.length ≤ INPUT_BUF
  edit : newline ∉ a.l ∧ ctrlD ∉ a.l
  full : a.q.length + a.l.length = INPUT_BUF → a.l = []
  returned : d.returned = a.returned

namespace Refines

variable {d : Input} {a : Line}

theorem q_length (h : Refines d a) : a.q.length = (d.w - d.r).toNat := by
  rw [← h.q, CounterRing.length_items]

theorem l_length (h : Refines d a) : a.l.length = (d.e - d.w).toNat := by
  rw [← h.l, CounterRing.length_items]

theorem total (h : Refines d a) : (d.e - d.r).toNat = a.q.length + a.l.length := by
  have hroom := h.room
  have h128 : INPUT_BUF = 128 := rfl
  rw [h.q_length, h.l_length] at *
  exact CounterRing.sub_toNat_add _ _ _ (by omega)

theorem input_buf_dvd : INPUT_BUF ∣ 2 ^ 32 := ⟨2 ^ 25, rfl⟩

theorem drop_last (h : Refines d a) (hne : d.e ≠ d.w) :
    a.l = CounterRing.items d.buf d.w.toNat (d.e - 1 - d.w).toNat ++ [d.char (d.e - 1)] := by
  have hpos : 0 < (d.e - d.w).toNat := by
    have := mt (CounterRing.sub_toNat_eq_zero d.w d.e).mp (Ne.symm hne)
    omega
  have hcount := CounterRing.sub_one_sub_toNat d.w d.e hpos
  rw [← h.l, ← hcount, CounterRing.items_append, Input.char,
    CounterRing.toNat_eq_add_sub d.w (d.e - 1), CounterRing.ofNat_mod_of_dvd input_buf_dvd]
  rfl

theorem backspace (h : Refines d a) (hne : d.e ≠ d.w) :
    Refines { d with e := d.e - 1 } (a.setLine a.l.dropLast) := by
  have hlast := h.drop_last hne
  have hroom := h.room
  have hlen : a.l.dropLast.length + 1 = a.l.length := by
    rw [hlast]
    simp
  refine ⟨h.q, ?_, ?_, ?_, ?_, h.returned⟩
  · change _ = a.l.dropLast
    rw [hlast, List.dropLast_concat]
  · change a.q.length + a.l.dropLast.length ≤ INPUT_BUF
    omega
  · exact ⟨fun hm => h.edit.1 (List.mem_of_mem_dropLast hm),
      fun hm => h.edit.2 (List.mem_of_mem_dropLast hm)⟩
  · intro hfull
    have hfull : a.q.length + a.l.dropLast.length = INPUT_BUF := hfull
    omega

theorem killLine (fuel : ℕ) (h : Refines d a) (hf : fuel = a.l.length) :
    Refines (d.killLine fuel) (a.setLine []) := by
  induction fuel generalizing d a with
  | zero =>
    have hl : a.l = [] := List.eq_nil_of_length_eq_zero hf.symm
    rw [Input.killLine]
    rw [show a.setLine [] = a by rw [Line.setLine, ← hl]]
    exact h
  | succ fuel ih =>
    have hne : d.e ≠ d.w := by
      intro heq
      have := (CounterRing.sub_toNat_eq_zero d.w d.e).mpr heq.symm
      rw [← h.l_length] at this
      omega
    have hlast := h.drop_last hne
    have hchar : d.char (d.e - 1) ≠ newline := by
      intro heq
      refine h.edit.1 ?_
      rw [hlast, heq]
      simp
    rw [Input.killLine, if_pos ⟨hne, hchar⟩]
    refine ih (a := a.setLine a.l.dropLast) (h.backspace hne) ?_
    change fuel = a.l.dropLast.length
    rw [List.length_dropLast]
    omega

theorem put (h : Refines d a) (c : UInt8) (hlt : a.q.length + a.l.length < INPUT_BUF) :
    CounterRing.items (d.put c).buf d.r.toNat (d.w - d.r).toNat = a.q ∧
      CounterRing.items (d.put c).buf d.w.toNat ((d.put c).e - d.w).toNat = a.l ++ [c] := by
  have h128 : INPUT_BUF = 128 := rfl
  have hq := h.q_length
  have hl := h.l_length
  have hcount : ((d.put c).e - d.w).toNat = (d.e - d.w).toNat + 1 :=
    CounterRing.add_one_sub_toNat _ _ (by omega)
  have hr : Fin.ofNat INPUT_BUF d.e.toNat =
      Fin.ofNat INPUT_BUF (d.r.toNat + (a.q.length + a.l.length)) := by
    rw [CounterRing.toNat_eq_add_sub d.r d.e, CounterRing.ofNat_mod_of_dvd input_buf_dvd, h.total]
  have hw : Fin.ofNat INPUT_BUF d.e.toNat = Fin.ofNat INPUT_BUF (d.w.toNat + a.l.length) := by
    rw [CounterRing.toNat_eq_add_sub d.w d.e, CounterRing.ofNat_mod_of_dvd input_buf_dvd, hl]
  refine ⟨?_, ?_⟩
  · change CounterRing.items (Function.update d.buf (Fin.ofNat INPUT_BUF d.e.toNat) c) _ _ = _
    rw [hr, CounterRing.items_update_of_le _ (by omega) hlt, h.q]
  · rw [hcount]
    change CounterRing.items (Function.update d.buf (Fin.ofNat INPUT_BUF d.e.toNat) c) _ _ = _
    rw [hw, ← hl, CounterRing.items_push _ (by omega), hl, h.l]

/-- The line joins the queue in the ring. -/
theorem joined (d : Input) (h : (d.w - d.r).toNat + (d.e - d.w).toNat < 2 ^ 32) :
    CounterRing.items d.buf d.r.toNat (d.e - d.r).toNat =
      CounterRing.items d.buf d.r.toNat (d.w - d.r).toNat ++
        CounterRing.items d.buf d.w.toNat (d.e - d.w).toNat := by
  rw [CounterRing.sub_toNat_add _ _ _ h, CounterRing.items_append,
    CounterRing.toNat_eq_add_sub d.r d.w, CounterRing.items_mod input_buf_dvd]

theorem insert (h : Refines d a) {c : UInt8} (hlt : a.q.length + a.l.length < INPUT_BUF)
    (hc : ¬(c = newline ∨ c = ctrlD ∨ a.q.length + (a.l ++ [c]).length = INPUT_BUF)) :
    Refines (d.put c) (a.setLine (a.l ++ [c])) := by
  obtain ⟨hq, hl⟩ := h.put c hlt
  rw [List.length_append, List.length_singleton] at hc
  refine ⟨hq, hl, ?_, ?_, ?_, h.returned⟩
  · change a.q.length + (a.l ++ [c]).length ≤ INPUT_BUF
    rw [List.length_append, List.length_singleton]
    omega
  · have h1 := h.edit.1
    have h2 := h.edit.2
    constructor <;> (change _ ∉ a.l ++ [c]; rw [List.mem_append, List.mem_singleton]; grind)
  · intro hfull
    have hfull : a.q.length + (a.l ++ [c]).length = INPUT_BUF := hfull
    rw [List.length_append, List.length_singleton] at hfull
    omega

/-- A character that commits the line. -/
theorem commit (h : Refines d a) (c : UInt8) (hlt : a.q.length + a.l.length < INPUT_BUF) :
    Refines { d.put c with w := (d.put c).e } (a.setLine (a.l ++ [c])).commit := by
  have h128 : INPUT_BUF = 128 := rfl
  obtain ⟨hq, hl⟩ := h.put c hlt
  have hql := h.q_length
  have hll := congrArg List.length hl
  rw [CounterRing.length_items, List.length_append, List.length_singleton] at hll
  refine ⟨?_, ?_, ?_, ⟨nofun, nofun⟩, fun _ => rfl, h.returned⟩
  · have hjoin := joined (d.put c)
      (show (d.w - d.r).toNat + ((d.put c).e - d.w).toNat < 2 ^ 32 by omega)
    exact hjoin.trans (congrArg₂ (· ++ ·) hq hl)
  · change CounterRing.items _ _ ((d.put c).e - (d.put c).e).toNat = []
    rw [(CounterRing.sub_toNat_eq_zero _ _).mpr rfl]
    rfl
  · change (a.q ++ (a.l ++ [c])).length + 0 ≤ INPUT_BUF
    simp only [List.length_append, List.length_singleton]
    omega

theorem room_iff (h : Refines d a) :
    d.e - d.r < INPUT_BUF.toUInt32 ↔ a.q.length + a.l.length < INPUT_BUF := by
  rw [UInt32.lt_iff_toNat_lt, h.total]
  exact Iff.rfl

theorem full_iff (h : Refines d a) (c : UInt8) (hlt : a.q.length + a.l.length < INPUT_BUF) :
    (d.put c).e = d.r + INPUT_BUF.toUInt32 ↔
      a.q.length + (a.l ++ [c]).length = INPUT_BUF := by
  have h128 : INPUT_BUF = 128 := rfl
  have htotal := h.total
  have hcount : ((d.put c).e - d.r).toNat = (d.e - d.r).toNat + 1 :=
    CounterRing.add_one_sub_toNat _ _ (by omega)
  have hadd : (d.r + INPUT_BUF.toUInt32 - d.r).toNat = INPUT_BUF := by
    rw [add_sub_cancel_left]
    rfl
  rw [List.length_append, List.length_singleton, ← add_assoc, ← htotal, ← hcount]
  refine ⟨fun heq => by rw [heq, hadd], fun heq => ?_⟩
  have := UInt32.toNat_inj.mp (heq.trans hadd.symm)
  exact sub_left_injective this

/-- `consoleintr` implements typing. -/
theorem intr (h : Refines d a) (c : UInt8) :
    Refines (d.intr c).1 (a.type c).1 ∧ (d.intr c).2 = (a.type c).2 := by
  rw [Input.intr, Line.type]
  by_cases hP : c = ctrlP
  · rw [if_pos hP, if_pos hP]
    exact ⟨h, rfl⟩
  rw [if_neg hP, if_neg hP]
  by_cases hU : c = ctrlU
  · rw [if_pos hU, if_pos hU]
    exact ⟨h.killLine _ h.l_length.symm, rfl⟩
  rw [if_neg hU, if_neg hU]
  by_cases hH : c = ctrlH ∨ c = delete
  · rw [if_pos hH, if_pos hH]
    refine ⟨?_, rfl⟩
    by_cases hne : d.e ≠ d.w
    · rw [if_pos hne]
      exact h.backspace hne
    · have hl : a.l = [] := by
        apply List.eq_nil_of_length_eq_zero
        rw [h.l_length]
        exact (CounterRing.sub_toNat_eq_zero _ _).mpr (not_not.mp hne).symm
      rw [if_neg hne, hl,
        show a.setLine [].dropLast = a by rw [List.dropLast_nil, Line.setLine, ← hl]]
      exact h
  rw [if_neg hH, if_neg hH]
  by_cases hroom : c ≠ 0 ∧ a.q.length + a.l.length < INPUT_BUF
  · rw [if_pos ⟨hroom.1, h.room_iff.mpr hroom.2⟩, if_pos hroom]
    dsimp only
    generalize (if c = carriageReturn then newline else c) = c'
    have hiff : (d.put c').e = (d.put c').r + INPUT_BUF.toUInt32 ↔
        (a.setLine (a.l ++ [c'])).q.length + (a.setLine (a.l ++ [c'])).l.length = INPUT_BUF :=
      h.full_iff c' hroom.2
    by_cases hend : c' = newline ∨ c' = ctrlD ∨
      (a.setLine (a.l ++ [c'])).q.length + (a.setLine (a.l ++ [c'])).l.length = INPUT_BUF
    · rw [if_pos (hend.imp_right (Or.imp_right hiff.mpr)), if_pos hend]
      exact ⟨h.commit c' hroom.2, rfl⟩
    · rw [if_neg fun hc => hend (hc.imp_right (Or.imp_right hiff.mp)), if_neg hend]
      exact ⟨h.insert hroom.2 hend, rfl⟩
  · rw [if_neg fun hc => hroom ⟨hc.1, h.room_iff.mp hc.2⟩, if_neg hroom]
    exact ⟨h, rfl⟩

theorem nonempty_iff (h : Refines d a) : d.r = d.w ↔ a.q = [] := by
  rw [← List.length_eq_zero_iff, h.q_length, CounterRing.sub_toNat_eq_zero]

theorem advance (h : Refines d a) (hne : d.r ≠ d.w) :
    a.q = d.char d.r :: a.q.tail ∧ Refines d.advance a.take := by
  have hpos : 0 < (d.w - d.r).toNat := by
    have := mt (CounterRing.sub_toNat_eq_zero d.r d.w).mp hne
    omega
  have hcount := CounterRing.sub_add_one_toNat d.r d.w hpos
  have hq : a.q = d.char d.r ::
      CounterRing.items d.buf d.advance.r.toNat (d.w - d.advance.r).toNat := by
    rw [← h.q, ← hcount, CounterRing.items_succ]
    change _ = _ :: CounterRing.items _ (d.r + 1).toNat _
    rw [CounterRing.toNat_add_one, CounterRing.items_mod input_buf_dvd]
    rfl
  have hroom := h.room
  have hlen : a.q.length = a.q.tail.length + 1 := by
    rw [hq]
    rfl
  refine ⟨by rw [hq]; rfl, ?_, h.l, ?_, h.edit, ?_, h.returned⟩
  · change _ = a.q.tail
    rw [hq]
    rfl
  · change a.q.tail.length + a.l.length ≤ INPUT_BUF
    omega
  · intro hfull
    have hfull : a.q.tail.length + a.l.length = INPUT_BUF := hfull
    omega

theorem ret (h : Refines d a) (x : Ret) : Refines (d.ret x) (a.ret x) :=
  ⟨h.q, h.l, h.room, h.edit, h.full, congrArg (· ++ [x]) h.returned⟩

/-- The code of the calls agrees with what they do to the queue and the line. -/
theorem next (h : Refines d a) (x : Place) (killed : Bool) :
    (consoleNext x killed d).Agrees Refines d a (lineNext x killed a) := by
  cases x with
  | intr cs =>
    cases cs with
    | nil => exact ⟨h, rfl, rfl⟩
    | cons c cs =>
      obtain ⟨hR, hwake⟩ := h.intr c
      rw [consoleNext, lineNext, hwake]
      cases (a.type c).2 with
      | true => exact ⟨hR, rfl, rfl⟩
      | false => exact ⟨hR, rfl, rfl⟩
  | wake cs => exact ⟨h, rfl, rfl⟩
  | read target dst =>
    rw [consoleNext, lineNext]
    by_cases hn : target - dst.length > 0
    · rw [if_pos hn, if_neg (show ¬target ≤ dst.length by omega)]
      by_cases he : d.r = d.w
      · rw [if_pos he, h.nonempty_iff.mp he]
        cases killed with
        | true => exact ⟨h.ret _, rfl, rfl⟩
        | false => exact ⟨h, rfl, rfl⟩
      · obtain ⟨hq, hR⟩ := h.advance he
        rw [if_neg he, hq]
        dsimp only
        by_cases hD : d.char d.r = ctrlD
        · rw [if_pos hD, if_pos hD]
          by_cases hnil : dst = []
          · rw [hnil, if_pos rfl, if_neg (by simp)]
            exact ⟨hR.ret _, rfl, rfl⟩
          · have hpos := List.length_pos_of_ne_nil hnil
            have hback : d.advance.retreat = d := by
              rw [Input.retreat, Input.advance, add_sub_cancel_right]
            rw [if_neg hnil, if_pos (by omega), hback]
            exact ⟨h.ret _, rfl, rfl⟩
        · rw [if_neg hD, if_neg hD]
          by_cases hnl : d.char d.r = newline
          · rw [if_pos hnl, if_pos hnl, List.length_append, List.length_singleton]
            exact ⟨hR.ret _, rfl, rfl⟩
          · rw [if_neg hnl, if_neg hnl]
            exact ⟨hR, rfl, rfl⟩
    · rw [if_neg hn, if_pos (show target ≤ dst.length by omega)]
      exact ⟨h.ret _, rfl, rfl⟩

end Refines

/-- What a call of `consoleread` may return: at most `n` characters, none of them `^D`, and a
newline only as the last one; and how many, by the reason why the call ended. -/
structure Ret.Sound (x : Ret) : Prop where
  short : x.dst.length ≤ x.n.toNat
  noEof : ctrlD ∉ x.dst
  oneLine : newline ∉ x.dst.dropLast
  r : x.r = if x.why = .killed then -1 else (x.dst.length : ℤ)
  full : x.why = .full → x.dst.length = x.n.toNat
  newline_iff : x.why = .newline ↔ x.dst.getLast? = some newline

def Place.Sound : Place → Prop
  | .intr _ => True
  | .wake _ => True
  | .read target dst => dst.length ≤ target.toNat ∧ ctrlD ∉ dst ∧ newline ∉ dst

theorem Place.Sound.ret {target : ℤ} {dst : List UInt8} (h : (Place.read target dst).Sound) (r : ℤ)
    (why : Why) (hr : r = if why = .killed then -1 else (dst.length : ℤ))
    (hfull : why = .full → dst.length = target.toNat) (hwhy : why ≠ .newline) :
    Ret.Sound ⟨target, dst, r, why⟩ where
  short := h.1
  noEof := h.2.1
  oneLine hm := h.2.2 (List.mem_of_mem_dropLast hm)
  r := hr
  full := hfull
  newline_iff := ⟨fun h => absurd h hwhy, fun hl => absurd (List.mem_of_getLast? hl) h.2.2⟩

theorem Place.Sound.snoc {target : ℤ} {dst : List UInt8} (h : (Place.read target dst).Sound)
    (hlt : ¬target ≤ dst.length) {c : UInt8} (hD : c ≠ ctrlD) (hnl : c ≠ newline) :
    (Place.read target (dst ++ [c])).Sound := by
  refine ⟨?_, ?_, ?_⟩
  · rw [List.length_append, List.length_singleton]
    omega
  · rw [List.mem_append, List.mem_singleton]
    exact fun hm => hm.elim h.2.1 fun he => hD he.symm
  · rw [List.mem_append, List.mem_singleton]
    exact fun hm => hm.elim h.2.2 fun he => hnl he.symm

theorem Place.Sound.line {target : ℤ} {dst : List UInt8} (h : (Place.read target dst).Sound)
    (hlt : ¬target ≤ dst.length) :
    Ret.Sound ⟨target, dst ++ [newline], dst.length + 1, .newline⟩ where
  short := by
    change (dst ++ [newline]).length ≤ target.toNat
    rw [List.length_append, List.length_singleton]
    omega
  noEof := by
    rw [List.mem_append, List.mem_singleton]
    exact fun hm => hm.elim h.2.1 (by decide)
  oneLine := by
    rw [List.dropLast_concat]
    exact h.2.2
  r := by simp
  full := nofun
  newline_iff := by simp

/-- Every committed character is in the queue or was taken, in order and once. -/
structure Line.Accounted (a : Line) : Prop where
  conserved : a.committed = a.taken ++ a.q
  returned : ∀ x ∈ a.returned, x.Sound

namespace Line.Accounted

variable {a : Line}

theorem ret (h : a.Accounted) {x : Ret} (hx : x.Sound) : (a.ret x).Accounted where
  conserved := h.conserved
  returned y hy := (List.mem_append.mp hy).elim (h.returned y) fun hy =>
    List.mem_singleton.mp hy ▸ hx

theorem take (h : a.Accounted) : a.take.Accounted where
  conserved := by
    change a.committed = a.taken ++ a.q.take 1 ++ a.q.tail
    rw [h.conserved, List.append_assoc, ← List.drop_one, List.take_append_drop]
  returned := h.returned

theorem type (h : a.Accounted) (c : UInt8) : (a.type c).1.Accounted := by
  have hset : ∀ l, (a.setLine l).Accounted := fun l => ⟨h.conserved, h.returned⟩
  have hcommit : ∀ l, (a.setLine l).commit.Accounted := fun l =>
    ⟨by change a.committed ++ l = a.taken ++ (a.q ++ l); rw [h.conserved, List.append_assoc],
      h.returned⟩
  rw [Line.type]
  dsimp only
  generalize (if c = carriageReturn then newline else c) = c'
  split_ifs
  exacts [h, hset _, hset _, hcommit _, hset _, h]

theorem next (h : a.Accounted) {x : Place} (hx : x.Sound) (killed : Bool) :
    ((lineNext x killed a).data a).Accounted ∧
      ∀ y, (lineNext x killed a).place = some y → y.Sound := by
  cases x with
  | intr cs =>
    cases cs with
    | nil => exact ⟨h, nofun⟩
    | cons c cs =>
      refine ⟨h.type c, fun y hy => ?_⟩
      obtain rfl := Option.some.inj hy
      split
      · trivial
      · trivial
  | wake cs => exact ⟨h, fun y hy => Option.some.inj hy ▸ trivial⟩
  | read target dst =>
    rw [lineNext]
    by_cases hn : target ≤ dst.length
    · rw [if_pos hn]
      have hshort := hx.1
      exact ⟨h.ret (hx.ret _ _ rfl (fun _ => by omega) nofun), nofun⟩
    rw [if_neg hn]
    split
    · cases killed with
      | true => exact ⟨h.ret (hx.ret _ _ rfl nofun nofun), nofun⟩
      | false => exact ⟨h, fun y hy => Option.some.inj hy ▸ hx⟩
    · rename_i c rest _
      by_cases hD : c = ctrlD
      · rw [if_pos hD]
        refine ⟨?_, nofun⟩
        have hret : Ret.Sound ⟨target, dst, dst.length, .eof⟩ := hx.ret _ _ rfl nofun nofun
        change Line.Accounted ((if dst = [] then a.take else a).ret _)
        split
        · exact h.take.ret hret
        · exact h.ret hret
      rw [if_neg hD]
      by_cases hnl : c = newline
      · rw [if_pos hnl, hnl]
        exact ⟨h.take.ret (hx.line hn), nofun⟩
      · rw [if_neg hnl]
        exact ⟨h.take, fun y hy => Option.some.inj hy ▸ hx.snoc hn hD hnl⟩

theorem start {x : Place} (h : consoleStart x = true) : x.Sound := by
  cases x with
  | intr cs => trivial
  | wake cs => trivial
  | read target dst =>
    obtain rfl := List.isEmpty_iff.mp h
    exact ⟨Nat.zero_le _, by simp, by simp⟩

theorem reaches {ι : Type*} [DecidableEq ι] {s : State ι Place Line}
    (h : Run.Reaches (step lineClient) (Monitor.init Line.init) s) :
    s.data.Accounted := by
  refine (invariant lineClient (I := fun a _ l => a.Accounted ∧ ∀ i x, l i = some x → x.Sound)
    ?_ ?_ ?_ ?_ h).1
  · exact ⟨⟨rfl, nofun⟩, nofun⟩
  · intro a _ l i x ⟨ha, hl⟩ _ hx
    refine ⟨ha, fun j y hy => ?_⟩
    rw [Function.update_apply] at hy
    split at hy
    · exact Option.some.inj hy ▸ start hx
    · exact hl j y hy
  · exact fun a l i x hI _ => hI
  · intro a l i x b ⟨ha, hl⟩ hi
    obtain ⟨hdata, hplace⟩ := ha.next (hl i x hi) b
    refine ⟨hdata, fun j y hy => ?_⟩
    rw [Function.update_apply] at hy
    split at hy
    · exact hplace y hy
    · exact hl j y hy

end Line.Accounted

/-- The console refines the line discipline: whatever is typed and however readers interleave, the
same calls on a queue and an edit line go the same way, the counters and the ring hold that queue
and that line, every committed character is delivered in order and once, and what each read returns
ends at a newline, at `^D` or at `n` characters. -/
theorem console_refines_line {ι : Type*} [DecidableEq ι] (buf : Fin INPUT_BUF → UInt8)
    (as : List (Act ι Place)) (s : State ι Place Input)
    (h : Run.exec (step consoleClient) (init (Input.init buf)) as = some s) :
    ∃ t, Run.exec (step lineClient) (init Line.init) as = some t ∧ t.owner = s.owner ∧
      t.place = s.place ∧ Refines s.data t.data ∧ (s.data.w - s.data.r).toNat = t.data.q.length ∧
      (s.data.e - s.data.w).toNat = t.data.l.length ∧ t.data.Accounted := by
  have hnil : ∀ r, CounterRing.items buf r ((0 : UInt32) - 0).toNat = [] := fun _ => rfl
  have hinit : Refines (Input.init buf) Line.init :=
    ⟨hnil _, hnil _, Nat.zero_le _, ⟨List.not_mem_nil, List.not_mem_nil⟩, fun _ => rfl, rfl⟩
  have hstart : consoleClient.start = lineClient.start := rfl
  obtain ⟨t, ht, hR, ho, hp⟩ := simulates hstart (fun x b d a hR => Refines.next hR x b) hinit h
  exact ⟨t, ht, ho, hp, hR, hR.q_length.symm, hR.l_length.symm,
    Line.Accounted.reaches ⟨as, ht⟩⟩

/-- A reader waits; `hx`, a backspace, `i` and a carriage return are typed, and `^D`. -/
def typeAndRead : List (Act ℕ Place) :=
  [.call 1 (.read 8 []), .enter 1, .next 1 false, .call 0 (.intr [104, 120, 8, 105, 13, 4]),
    .enter 0] ++
  List.replicate 9 (.next 0 false) ++ [.enter 1] ++ List.replicate 3 (.next 1 false) ++
  [.call 2 (.read 8 []), .enter 2, .next 2 false]

theorem console_refines_line_hi : ∃ s t,
    Run.exec (step consoleClient) (init (Input.init fun _ => 0)) typeAndRead = some s ∧
    s.data.returned.map (fun x => (x.dst, x.r)) = [([104, 105, 10], 3), ([], 0)] ∧
    Run.exec (step lineClient) (init Line.init) typeAndRead = some t ∧ Refines s.data t.data ∧
    t.data.Accounted := by
  have hrun : (Run.exec (step consoleClient) (init (Input.init fun _ => 0)) typeAndRead).map
      (fun s => s.data.returned.map fun x => (x.dst, x.r)) =
      some [([104, 105, 10], 3), ([], 0)] := by decide +kernel
  obtain ⟨s, hs, hret⟩ := Option.map_eq_some_iff.mp hrun
  obtain ⟨t, ht, _, _, hR, _, _, ha⟩ := console_refines_line _ _ s hs
  exact ⟨s, t, hs, hret, ht, hR, ha⟩

end Xv6.Console
