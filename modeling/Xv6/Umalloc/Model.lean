import Mathlib.Algebra.Ring.Nat
import Xv6.Lib.Extent

/-! The allocator of `umalloc.c`: a circular list of free blocks, in the order of their
addresses, each with a header of 8 bytes. -/
namespace Xv6

namespace Umalloc

/-- `union header`; both fields are 32-bit words. -/
structure Header where
  ptr : ℕ
  size : ℕ

/-- The headers in the memory of the process, and `freep`, where 0 is the null pointer.
`regions` is what `sbrk` has returned so far. -/
structure Heap where
  cell : ℕ → Header
  freep : ℕ
  regions : List Extent

/-- What the kernel does for `sbrk`: the size of the process, and the call, which does not
return (`none`), fails (`some none`) or returns an address. -/
structure Sbrk (K : Type*) where
  top : K → ℕ
  call : K → ℕ → Option (Option ℕ × K)

/-- `p + n` for a `Header *`. -/
def plus (p n : ℕ) : ℕ := (p + 8 * n) % 2 ^ 32

/-- The units `morecore` asks for. -/
def growth (nu : ℕ) : ℕ := if nu < 4096 then 4096 else nu

namespace Heap

def ptr (h : Heap) (p : ℕ) : ℕ := (h.cell p).ptr

def size (h : Heap) (p : ℕ) : ℕ := (h.cell p).size

def setPtr (h : Heap) (p q : ℕ) : Heap :=
  { h with cell := Function.update h.cell p { h.cell p with ptr := q } }

def setSize (h : Heap) (p n : ℕ) : Heap :=
  { h with cell := Function.update h.cell p { h.cell p with size := n } }

def Stops (h : Heap) (bp p : ℕ) : Prop :=
  (p < bp ∧ bp < h.ptr p) ∨ (h.ptr p ≤ p ∧ (p < bp ∨ bp < h.ptr p))

instance (h : Heap) (bp p : ℕ) : Decidable (h.Stops bp p) := inferInstanceAs (Decidable (_ ∨ _))

/-- The loop of `free`, from `p` on. -/
def slot (h : Heap) (bp : ℕ) : ℕ → ℕ → Option ℕ
  | 0, _ => none
  | fuel + 1, p => if h.Stops bp p then some p else h.slot bp fuel (h.ptr p)

def joinUpper (h : Heap) (bp p : ℕ) : Heap :=
  if plus bp (h.size bp) = h.ptr p then
    (h.setSize bp ((h.size bp + h.size (h.ptr p)) % 2 ^ 32)).setPtr bp (h.ptr (h.ptr p))
  else h.setPtr bp (h.ptr p)

def joinLower (h : Heap) (bp p : ℕ) : Heap :=
  if plus p (h.size p) = bp then
    (h.setSize p ((h.size p + h.size bp) % 2 ^ 32)).setPtr p (h.ptr bp)
  else h.setPtr p bp

def free (h : Heap) (fuel ap : ℕ) : Option Heap :=
  let bp := (ap + (2 ^ 32 - 8)) % 2 ^ 32
  (h.slot bp fuel h.freep).map fun p =>
    { (h.joinUpper bp p).joinLower bp p with freep := p }

section sbrk

variable {K : Type*} (sbrk : Sbrk K)

def morecore (h : Heap) (k : K) (fuel nu : ℕ) : Option (ℕ × Heap × K) :=
  let nu := growth nu
  match sbrk.call k (nu * 8 % 2 ^ 32) with
  | none => none
  | some (none, k') => some (0, h, k')
  | some (some hp, k') =>
    let h := { h with regions := ⟨hp, hp + nu * 8 % 2 ^ 32⟩ :: h.regions }
    ((h.setSize hp nu).free fuel (plus hp 1)).map fun h => (h.freep, h, k')

/-- Take `nunits` from the block `p` behind `prevp`: all of it, or its upper end. -/
def take (h : Heap) (nunits prevp p : ℕ) : ℕ × Heap :=
  if h.size p = nunits then (plus p 1, { h.setPtr prevp (h.ptr p) with freep := prevp })
  else
    let h := h.setSize p (h.size p - nunits)
    let p := plus p (h.size p)
    (plus p 1, { h.setSize p nunits with freep := prevp })

def search (nunits : ℕ) : ℕ → Heap → K → ℕ → ℕ → Option (ℕ × Heap × K)
  | 0, _, _, _, _ => none
  | fuel + 1, h, k, prevp, p =>
    if nunits ≤ h.size p then
      let (ap, h) := h.take nunits prevp p
      some (ap, h, k)
    else if p = h.freep then
      match h.morecore sbrk k fuel nunits with
      | none => none
      | some (q, h, k) => if q = 0 then some (0, h, k) else search nunits fuel h k q (h.ptr q)
    else search nunits fuel h k p (h.ptr p)

def unitsFor (nbytes : ℕ) : ℕ := (nbytes + 7) % 2 ^ 32 / 8 + 1

/-- `base` is the address of the static variable. -/
def malloc (base : ℕ) (h : Heap) (k : K) (fuel nbytes : ℕ) : Option (ℕ × Heap × K) :=
  let h :=
    if h.freep = 0 then { h with cell := Function.update h.cell base ⟨base, 0⟩, freep := base }
    else h
  search sbrk (unitsFor nbytes) fuel h k h.freep (h.ptr h.freep)

end sbrk

end Heap

structure Live where
  block : Extent
  nbytes : ℕ

structure Process (K : Type*) where
  heap : Heap
  k : K
  live : List Live

/-- What the program does: a call of `malloc`, a call of `free` for one of its blocks, a store
of a word anywhere in one of them; `elsewhere` is the kernel after other processes have run. -/
inductive Call (K : Type*) where
  | malloc (nbytes : ℕ)
  | free (i : ℕ)
  | store (i a : ℕ) (x : Header)
  | elsewhere (k : K)

section process

variable {K : Type*} (sbrk : Sbrk K) (base fuel : ℕ)

def Heap.block (h : Heap) (ap : ℕ) : Extent := ⟨ap - 8, ap - 8 + 8 * h.size (ap - 8)⟩

def Process.step (s : Process K) : Call K → Option (Process K)
  | .malloc nbytes =>
    (s.heap.malloc sbrk base s.k fuel nbytes).map fun r =>
      ⟨r.2.1, r.2.2, if r.1 = 0 then s.live else ⟨r.2.1.block r.1, nbytes⟩ :: s.live⟩
  | .free i =>
    match s.live[i]? with
    | none => some s
    | some b =>
      (s.heap.free fuel (b.block.lo + 8)).map fun h =>
        { s with heap := h, live := s.live.eraseIdx i }
  | .store i a x =>
    match s.live[i]? with
    | none => some s
    | some b =>
      if b.block.lo < a ∧ a < b.block.hi then
        some { s with heap := { s.heap with cell := Function.update s.heap.cell a x } }
      else some s
  | .elsewhere k => if sbrk.top k = sbrk.top s.k then some { s with k := k } else some s

end process

end Umalloc

end Xv6
