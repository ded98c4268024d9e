import Mathlib.Data.List.Basic
import Mathlib.Data.UInt

/-! `grep.c`: the matcher, and the loop over a sliding buffer. -/
namespace Xv6.Grep

def newline : UInt8 := 10

def dollar : UInt8 := 36

def star : UInt8 := 42

def dot : UInt8 := 46

def caret : UInt8 := 94

/-- `matchstar(c, re, text)`, for `here` the call of `matchhere` on `re`. -/
def matchstar (here : List UInt8 → Bool) (c : UInt8) : List UInt8 → Bool
  | [] => here []
  | t :: text => here (t :: text) || ((t == c || c == dot) && matchstar here c text)

/-- `matchhere(re, text)`, on strings without their final NUL. -/
def matchhere : List UInt8 → List UInt8 → Bool
  | [], _ => true
  | [c], text =>
    if c = dollar then text.isEmpty
    else
      match text with
      | [] => false
      | t :: _ => c == dot || c == t
  | c :: d :: re, text =>
    if d = star then matchstar (matchhere re) c text
    else
      match text with
      | [] => false
      | t :: text => (c == dot || c == t) && matchhere (d :: re) text

def matchAnywhere (re : List UInt8) : List UInt8 → Bool
  | [] => matchhere re []
  | t :: text => matchhere re (t :: text) || matchAnywhere re text

def matchText (re text : List UInt8) : Bool :=
  match re with
  | [] => matchAnywhere re text
  | c :: re' => if c = caret then matchhere re' text else matchAnywhere re text

/-- `strchr` on the rest of the buffer: the distance of the first `c`, or 0 if a NUL stands before
it; `none` if the search leaves the buffer. -/
def strchr (c : UInt8) : List UInt8 → Option (Option ℕ)
  | [] => none
  | b :: s => if b = 0 then some none else if b = c then some (some 0)
    else (strchr c s).map (Option.map (· + 1))

/-- `memmove(buf + dst, buf + src, n)`, forward; `none` if it leaves the buffer. -/
def memmove : ℕ → ℕ → ℕ → List UInt8 → Option (List UInt8)
  | 0, _, _, buf => some buf
  | n + 1, dst, src, buf =>
    if h : src < buf.length ∧ dst < buf.length then
      memmove n (dst + 1) (src + 1) (buf.set dst (buf.get ⟨src, h.1⟩))
    else none

/-- `sizeof(buf)`. -/
def BUF : ℕ := 1024

/-- The buffer, the number of bytes in it, and what was written to the standard output. -/
structure State where
  buf : List UInt8
  m : ℤ
  out : List UInt8

/-- The loop over the lines, with the buffer below and from `p` on. -/
def lineLoop (pattern : List UInt8) : ℕ → List UInt8 → List UInt8 → List UInt8 →
    Option (List UInt8 × List UInt8 × List UInt8)
  | 0, _, _, _ => none
  | fuel + 1, before, rest, out =>
    match strchr newline rest with
    | none => none
    | some none => some (before, rest, out)
    | some (some q) =>
      let line := rest.take q
      if matchText pattern line then
        lineLoop pattern fuel (before ++ (line ++ [newline])) (rest.drop (q + 1))
          (out ++ (line ++ [newline]))
      else lineLoop pattern fuel (before ++ (line ++ [0])) (rest.drop (q + 1)) out

/-- One round of the loop of `grep`, for a `read` that stores `chunk` at `buf + m`; `none` if an
access leaves the buffer. -/
def round (pattern : List UInt8) (s : State) (chunk : List UInt8) : Option State :=
  if s.m < 0 ∨ BUF < s.m + chunk.length then none
  else
    let buf := s.buf.take s.m.toNat ++ chunk ++ s.buf.drop (s.m.toNat + chunk.length)
    let m := s.m + chunk.length
    match lineLoop pattern (buf.length + 1) [] buf s.out with
    | none => none
    | some (before, rest, out) =>
      let buf := before ++ rest
      let p := before.length
      let m := if p = 0 then 0 else m
      if m > 0 then (memmove (m - p).toNat 0 p buf).map fun buf => ⟨buf, m - p, out⟩
      else some ⟨buf, m, out⟩

def rounds (pattern : List UInt8) (s : State) : List (List UInt8) → Option State
  | [] => some s
  | chunk :: chunks => (round pattern s chunk).bind fun s => rounds pattern s chunks

/-- `grep(pattern, fd)`, on the buffer that the calls before left, for the chunks that the calls of
`read` deliver. -/
def grep (pattern buf : List UInt8) (chunks : List (List UInt8)) : Option State :=
  rounds pattern ⟨buf, 0, []⟩ chunks

/-- The loop of `main` over the files that it opens: what each call of `grep` prints. The buffer is
not cleared in between. -/
def mainLoop (pattern buf : List UInt8) : List (List (List UInt8)) → Option (List (List UInt8))
  | [] => some []
  | file :: files =>
    (grep pattern buf file).bind fun s => (mainLoop pattern s.buf files).map (s.out :: ·)

def zeros : List UInt8 := List.replicate BUF 0

/-- The chunks are not empty, and not longer than `sizeof(buf) - m`. -/
def Reads (pattern : List UInt8) (s : State) : List (List UInt8) → Prop
  | [] => True
  | chunk :: chunks => chunk ≠ [] ∧ (chunk.length : ℤ) ≤ BUF - s.m ∧
    ∀ s', round pattern s chunk = some s' → Reads pattern s' chunks

def ReadsFiles (pattern buf : List UInt8) : List (List (List UInt8)) → Prop
  | [] => True
  | file :: files => Reads pattern ⟨buf, 0, []⟩ file ∧
    ∀ s, grep pattern buf file = some s → ReadsFiles pattern s.buf files

end Xv6.Grep
