import Xv6.Vm.Layout
import Xv6.Lib.Bytes
import Xv6.Lib.Prog

/-! Physical pages and page tables, as in `kalloc.c` and `vm.c`. A page is named by its frame
number, the upper 20 bits of its physical address. -/
namespace Xv6
namespace Vm

abbrev Page := Bytes PGSIZE

def fill (c : UInt8) : Page := fun _ => c

/-- Physical memory by frame number, and the free list of `kalloc.c`. -/
structure Mem where
  page : ℕ → Page
  free : List ℕ

/-- The symbols that `kernel.ld` provides: the page-aligned start of the data after a text
that is not empty, and the end of the kernel, which is loaded below 4 MB. -/
structure Image where
  data : ℕ
  kend : ℕ
  data_aligned : data % PGSIZE = 0
  text : KERNLINK < data
  data_le : data ≤ kend
  kend_le : kend ≤ KERNBASE + 4 * 1024 * 1024

abbrev VmM := Prog String Mem

def panic {α : Type} (msg : String) : VmM α := Prog.stop msg

def p2v (a : ℕ) : ℕ := (a + KERNBASE) % 2 ^ 32

def v2p (a : ℕ) : ℕ := (a + 2 ^ 32 - KERNBASE) % 2 ^ 32

def Mem.word (s : Mem) (f i : ℕ) : ℕ := (s.page f).word (4 * i)

def Mem.setPage (s : Mem) (f : ℕ) (p : Page) : Mem :=
  { s with page := Function.update s.page f p }

def Mem.setWord (s : Mem) (f i w : ℕ) : Mem := s.setPage f ((s.page f).setWord (4 * i) w)

def wordAt (f i : ℕ) : VmM ℕ := do
  let s ← Prog.get
  return s.word f i

def setWord (f i w : ℕ) : VmM Unit := Prog.modify fun s => s.setWord f i w

def memset (f : ℕ) (c : UInt8) : VmM Unit := Prog.modify fun s => s.setPage f (fill c)

def kalloc : VmM (Option ℕ) := do
  let s ← Prog.get
  match s.free with
  | [] => return none
  | f :: rest => do
    Prog.modify fun s => { s with free := rest }
    return some f

def kfree (k : Image) (f : ℕ) : VmM Unit :=
  if p2v (f * PGSIZE) % PGSIZE ≠ 0 ∨ p2v (f * PGSIZE) < k.kend ∨
      v2p (p2v (f * PGSIZE)) ≥ PHYSTOP then panic "kfree"
  else do
    memset f 1
    Prog.modify fun s => { s with free := f :: s.free }

/-- Free every whole page between the two addresses, upwards. -/
def freerange (k : Image) (vstart vend : ℕ) : VmM Unit :=
  (List.range' (v2p (PGROUNDUP vstart) / PGSIZE) ((vend - PGROUNDUP vstart) / PGSIZE)).forM fun f =>
    kfree k f

/-- `kinit1(end, P2V(4*1024*1024))`, as `main` calls it. -/
def kinit1 (k : Image) : VmM Unit := freerange k k.kend (p2v (4 * 1024 * 1024))

/-- `kinit2(P2V(4*1024*1024), P2V(PHYSTOP))`, as `main` calls it. -/
def kinit2 (k : Image) : VmM Unit := freerange k (p2v (4 * 1024 * 1024)) (p2v PHYSTOP)

/-- The frame and the index of the page-table entry of `va`. -/
def walkpgdir (pgdir va : ℕ) (alloc : Bool) : VmM (Option (ℕ × ℕ)) := do
  let pde ← wordAt pgdir (PDX va)
  if pde % 2 = 1 then return some (pde / PGSIZE, PTX va)
  else if alloc = false then return none
  else match ← kalloc with
    | none => return none
    | some pgtab => do
      memset pgtab 0
      setWord pgdir (PDX va) (pgtab * PGSIZE ||| PTE_P ||| PTE_W ||| PTE_U)
      return some (pgtab, PTX va)

/-- The loop of `mappages`; whether all pages could be mapped. -/
def mappagesFrom (pgdir last perm : ℕ) : ℕ → ℕ → ℕ → VmM Bool
  | 0, _, _ => return false
  | fuel + 1, a, pa => do
    match ← walkpgdir pgdir a true with
    | none => return false
    | some (t, i) => do
      let pte ← wordAt t i
      if pte % 2 = 1 then panic "remap"
      else do
        setWord t i (pa ||| perm ||| PTE_P)
        if a = last then return true
        else mappagesFrom pgdir last perm fuel ((a + PGSIZE) % 2 ^ 32) ((pa + PGSIZE) % 2 ^ 32)

def mappages (pgdir va size pa perm : ℕ) : VmM Bool :=
  mappagesFrom pgdir (PGROUNDDOWN ((va + size + (2 ^ 32 - 1)) % 2 ^ 32)) perm (2 ^ 20)
    (PGROUNDDOWN va) pa

structure Kmap where
  virt : ℕ
  physStart : ℕ
  physEnd : ℕ
  perm : ℕ

def kmap (k : Image) : List Kmap :=
  [⟨KERNBASE, 0, EXTMEM, PTE_W⟩,
    ⟨KERNLINK, v2p KERNLINK, v2p k.data, 0⟩,
    ⟨k.data, v2p k.data, PHYSTOP, PTE_W⟩,
    ⟨DEVSPACE, DEVSPACE, 0, PTE_W⟩]

def mapAll (pgdir : ℕ) : List Kmap → VmM Bool
  | [] => return true
  | m :: ms => do
    let ok ← mappages pgdir m.virt ((m.physEnd + 2 ^ 32 - m.physStart) % 2 ^ 32) m.physStart m.perm
    if ok = false then return false else mapAll pgdir ms

def setupkvm (k : Image) : VmM (Option ℕ) := do
  match ← kalloc with
  | none => return none
  | some pgdir => do
    memset pgdir 0
    if p2v PHYSTOP > DEVSPACE then panic "PHYSTOP too high"
    else do
      let ok ← mapAll pgdir (kmap k)
      return if ok then some pgdir else none

/-- Load the initcode into address 0; without a page its `memset` faults. -/
def inituvm (pgdir : ℕ) (init : List UInt8) : VmM Unit := do
  if init.length ≥ PGSIZE then panic "inituvm: more than a page"
  else match ← kalloc with
    | none => panic "trap"
    | some mem => do
      memset mem 0
      let _ ← mappages pgdir 0 PGSIZE (mem * PGSIZE) (PTE_W ||| PTE_U)
      Prog.modify fun s => s.setPage mem ((s.page mem).write 0 init)

/-- Free the page of an entry, if there is one. -/
def freePte (k : Image) (t i pte : ℕ) : VmM Unit :=
  if pte % 2 = 1 then
    if pte / PGSIZE = 0 then panic "kfree"
    else do
      kfree k (pte / PGSIZE)
      setWord t i 0
  else return ()

/-- The body of the loop of `deallocuvm`, with the address it leaves. -/
def deallocPage (k : Image) (pgdir a : ℕ) : VmM ℕ := do
  match ← walkpgdir pgdir a false with
  | none => return (a + (NPTENTRIES - 1) * PGSIZE) % 2 ^ 32
  | some (t, i) => do
    let pte ← wordAt t i
    freePte k t i pte
    return a

def deallocuvmFrom (k : Image) (pgdir oldsz : ℕ) : ℕ → ℕ → VmM Unit
  | 0, _ => return ()
  | fuel + 1, a =>
    if a < oldsz then do
      let a ← deallocPage k pgdir a
      deallocuvmFrom k pgdir oldsz fuel ((a + PGSIZE) % 2 ^ 32)
    else return ()

/-- Deallocate user pages to bring the size from `oldsz` to `newsz`. -/
def deallocuvm (k : Image) (pgdir oldsz newsz : ℕ) : VmM ℕ := do
  if newsz ≥ oldsz then return oldsz
  else do
    deallocuvmFrom k pgdir oldsz (2 ^ 20) (PGROUNDUP newsz)
    return newsz

/-- The loop of `allocuvm`; whether memory sufficed. -/
def allocuvmFrom (pgdir newsz : ℕ) : ℕ → ℕ → VmM Bool
  | 0, _ => return true
  | fuel + 1, a =>
    if a < newsz then do
      match ← kalloc with
      | none => return false
      | some mem => do
        memset mem 0
        let _ ← mappages pgdir a PGSIZE (mem * PGSIZE) (PTE_W ||| PTE_U)
        allocuvmFrom pgdir newsz fuel ((a + PGSIZE) % 2 ^ 32)
    else return true

/-- Grow user memory from `oldsz` to `newsz`: the new size, or 0. -/
def allocuvm (k : Image) (pgdir oldsz newsz : ℕ) : VmM ℕ := do
  if newsz ≥ KERNBASE then return 0
  else if newsz < oldsz then return oldsz
  else do
    let ok ← allocuvmFrom pgdir newsz (2 ^ 20) (PGROUNDUP oldsz)
    if ok then return newsz
    else do
      let _ ← deallocuvm k pgdir newsz oldsz
      return 0

def freevm (k : Image) (pgdir : ℕ) : VmM Unit := do
  let _ ← deallocuvm k pgdir KERNBASE 0
  (List.range NPDENTRIES).forM fun i => do
    let pde ← wordAt pgdir i
    if pde % 2 = 1 then kfree k (pde / PGSIZE) else pure ()
  kfree k pgdir

def clearU (pte : ℕ) : ℕ := if pte / PTE_U % 2 = 1 then pte - PTE_U else pte

def clearpteu (pgdir uva : ℕ) : VmM Unit := do
  match ← walkpgdir pgdir uva false with
  | none => panic "clearpteu"
  | some (t, i) => do
    let pte ← wordAt t i
    setWord t i (clearU pte)

def copyuvmFrom (pgdir d sz : ℕ) : ℕ → ℕ → VmM Bool
  | 0, _ => return true
  | fuel + 1, i =>
    if i < sz then do
      match ← walkpgdir pgdir i false with
      | none => panic "copyuvm: pte should exist"
      | some (t, j) => do
        let pte ← wordAt t j
        if pte % 2 = 0 then panic "copyuvm: page not present"
        else match ← kalloc with
          | none => return false
          | some mem => do
            Prog.modify fun s => s.setPage mem (s.page (pte / PGSIZE))
            let ok ← mappages d i PGSIZE (mem * PGSIZE) (pte % PGSIZE)
            if ok then copyuvmFrom pgdir d sz fuel ((i + PGSIZE) % 2 ^ 32) else return false
    else return true

/-- Copy the page table of a parent for its child. -/
def copyuvm (k : Image) (pgdir sz : ℕ) : VmM (Option ℕ) := do
  match ← setupkvm k with
  | none => return none
  | some d => do
    let ok ← copyuvmFrom pgdir d sz (2 ^ 20) 0
    if ok then return some d
    else do
      freevm k d
      return none

end Vm
end Xv6
