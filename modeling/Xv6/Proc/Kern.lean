import Xv6.Vm.Exec
import Xv6.Vm.Boot

/-! The processes and the pipes, and the pages they are made of, as in `proc.c`, `pipe.c` and
`sysproc.c`. What a kernel stack, a trap frame or a pipe holds is left out. -/
namespace Xv6
open Vm (Image Mem ProgFile)

namespace Kern

/-- `enum procstate`; a process that is not a zombie and not being made may run. -/
inductive ProcState where
  | unused
  | embryo
  | runnable
  | zombie
  deriving DecidableEq

/-- The fields of `struct proc` that are about memory. -/
structure Proc where
  state : ProcState
  sz : ℕ
  pgdir : Option ℕ
  kstack : Option ℕ
  parent : Option ℕ

structure Pipe where
  page : ℕ
  readopen : Bool
  writeopen : Bool

end Kern

/-- The kernel. Pages not yet given to the allocator are in `reserve`, and `raw` and `dirs` are
the pages and the directories of callers outside `proc.c`. -/
structure Kern where
  mem : Mem
  reserve : ℕ → Option ℕ
  raw : ℕ → Option ℕ
  dirs : ℕ → Option ℕ
  procs : ℕ → Kern.Proc
  initproc : Option ℕ
  pipes : ℕ → Option Kern.Pipe

abbrev KernM := Prog String Kern

namespace Kern

def panic {α : Type} (msg : String) : KernM α := Prog.stop msg

def vm {α : Type} (m : Vm.VmM α) : KernM α := m.zoom Kern.mem fun t s => { s with mem := t }

def setProc (s : Kern) (p : ℕ) (pr : Proc) : Kern :=
  { s with procs := Function.update s.procs p pr }

def setPipe (s : Kern) (i : ℕ) (pi : Option Pipe) : Kern :=
  { s with pipes := Function.update s.pipes i pi }

def proc (p : ℕ) : KernM Proc := do
  let s ← Prog.get
  return s.procs p

def store (p : ℕ) (pr : Proc) : KernM Unit := Prog.modify fun s => s.setProc p pr

def kfree (k : Image) : Option ℕ → KernM Unit
  | none => panic "kfree"
  | some f => vm (Vm.kfree k f)

def freevm (k : Image) : Option ℕ → KernM Unit
  | none => panic "freevm: no pgdir"
  | some d => vm (Vm.freevm k d)

/-- Look in the process table for an unused process, and give it a kernel stack. -/
def allocproc : KernM (Option ℕ) := do
  let s ← Prog.get
  match (List.range NPROC).find? fun p => (s.procs p).state = .unused with
  | none => return none
  | some p => do
    store p { s.procs p with state := .embryo }
    match ← vm Vm.kalloc with
    | none => do
      store p { s.procs p with kstack := none, state := .unused }
      return none
    | some f => do
      store p { s.procs p with kstack := some f, state := .embryo }
      return some p

def userinit (k : Image) (initcode : List UInt8) : KernM Unit := do
  match ← allocproc with
  | none => panic "trap"
  | some p => do
    Prog.modify fun s => { s with initproc := some p }
    let pr ← proc p
    match ← vm (Vm.setupkvm k) with
    | none => panic "userinit: out of memory?"
    | some d => do
      vm (Vm.inituvm d initcode)
      store p { pr with pgdir := some d, sz := PGSIZE, state := .runnable }

/-- The new size after growing by `n` bytes, 0 for a failure. -/
def resize (k : Image) (d sz : ℕ) (n : ℤ) : Vm.VmM ℕ :=
  if 0 < n then Vm.allocuvm k d sz (((sz : ℤ) + n) % 2 ^ 32).toNat
  else Vm.deallocuvm k d sz (((sz : ℤ) + n) % 2 ^ 32).toNat

def growproc (k : Image) (p : ℕ) (n : ℤ) : KernM Bool := do
  let pr ← proc p
  match pr.pgdir with
  | none => panic "trap"
  | some d =>
    if n = 0 then return true
    else do
      let sz ← vm (resize k d pr.sz n)
      if sz = 0 then return false
      else do
        store p { pr with sz := sz }
        return true

/-- Create a new process as a copy of `p`; the child. -/
def fork (k : Image) (p : ℕ) : KernM (Option ℕ) := do
  match ← allocproc with
  | none => return none
  | some np => do
    let pr ← proc p
    let child ← proc np
    match pr.pgdir with
    | none => panic "trap"
    | some d => do
      match ← vm (Vm.copyuvm k d pr.sz) with
      | none => do
        kfree k child.kstack
        store np { child with pgdir := none, kstack := none, state := .unused }
        return none
      | some e => do
        store np { child with pgdir := some e, sz := pr.sz, parent := some p, state := .runnable }
        return some np

/-- Replace the image of the process `p`; whether that worked. -/
def exec (k : Image) (p : ℕ) (file : ProgFile) (argv : List (List UInt8)) : KernM Bool := fun s =>
  match (s.procs p).pgdir with
  | none => .stop "trap"
  | some old =>
    match Vm.exec k old file argv (s.mem, []) with
    | .ok none t => .ok false { s with mem := t.1 }
    | .ok (some (d, sz, _)) t =>
      .ok true ({ s with mem := t.1 }.setProc p { s.procs p with pgdir := some d, sz := sz })
    | .stop e => .stop e.1

def abandon (s : Kern) (p : ℕ) : Kern :=
  { s with procs := fun q => { s.procs q with
      parent := if (s.procs q).parent = some p then s.initproc else (s.procs q).parent } }

def exit (p : ℕ) : KernM Unit := do
  let s ← Prog.get
  if s.initproc = some p then panic "init exiting"
  else do
    Prog.modify fun s => s.abandon p
    let pr ← proc p
    store p { pr with state := .zombie }

/-- One scan of `wait`: a child of `p` that has exited is freed. -/
def wait (k : Image) (p : ℕ) : KernM (Option ℕ) := do
  let s ← Prog.get
  match (List.range NPROC).find? fun q =>
    (s.procs q).parent = some p ∧ (s.procs q).state = .zombie with
  | none => return none
  | some q => do
    kfree k (s.procs q).kstack
    store q { s.procs q with kstack := none }
    freevm k (s.procs q).pgdir
    store q { s.procs q with kstack := none, state := .unused, parent := none }
    return some q

/-- The page of a new pipe; whether there was one. -/
def pipealloc (i : ℕ) : KernM Bool := do
  match ← vm Vm.kalloc with
  | none => return false
  | some f => do
    Prog.modify fun s => s.setPipe i (some ⟨f, true, true⟩)
    return true

def pipeclose (k : Image) (i : ℕ) (writable : Bool) : KernM Unit := do
  let s ← Prog.get
  match s.pipes i with
  | none => panic "trap"
  | some pi =>
    if (pi.readopen && writable) = false ∧ (pi.writeopen && !writable) = false then do
      vm (Vm.kfree k pi.page)
      Prog.modify fun s => s.setPipe i none
    else
      Prog.modify fun s => s.setPipe i
        (some ⟨pi.page, pi.readopen && writable, pi.writeopen && !writable⟩)

end Kern

end Xv6
