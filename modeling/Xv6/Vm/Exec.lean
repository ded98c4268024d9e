import Xv6.Vm.Paging
import Xv6.Fs.Layout

/-! `exec` and the functions it loads a program with, as in `exec.c` and `vm.c`. -/
namespace Xv6
namespace Vm

def MAXARG : ℕ := 32

def ELF_MAGIC : ℕ := 0x464C457F

def ELF_PROG_LOAD : ℕ := 1

structure ProgFile where
  bytes : List UInt8
  small : bytes.length ≤ MAXFILE * BSIZE

/-- `readi` of `n` bytes, `none` standing for -1. -/
def ProgFile.readi (f : ProgFile) (off n : ℕ) : Option (List UInt8) :=
  if f.bytes.length < off ∨ (off + n) % 2 ^ 32 < off then none
  else some ((f.bytes.drop off).take n)

def ushortAt (l : List UInt8) (off : ℕ) : ℕ := Bytes.bytesNat ((l.drop off).take 2)

def uintAt (l : List UInt8) (off : ℕ) : ℕ := Bytes.bytesNat ((l.drop off).take 4)

structure ElfHeader where
  magic : ℕ
  phoff : ℕ
  phnum : ℕ

def ElfHeader.size : ℕ := 52

def ElfHeader.ofBytes (l : List UInt8) : ElfHeader := ⟨uintAt l 0, uintAt l 28, ushortAt l 44⟩

structure ProgHeader where
  type : ℕ
  off : ℕ
  vaddr : ℕ
  filesz : ℕ
  memsz : ℕ

def ProgHeader.size : ℕ := 32

def ProgHeader.ofBytes (l : List UInt8) : ProgHeader :=
  ⟨uintAt l 0, uintAt l 4, uintAt l 8, uintAt l 16, uintAt l 20⟩

/-- A store of `loaduvm`: `len` bytes at the address `va` of an image of size `sz`, through the
page-table entry `pte`. -/
structure Store where
  va : ℕ
  len : ℕ
  pte : ℕ
  sz : ℕ

/-- Programs with the record of what `loaduvm` has stored. -/
abbrev ExecM := Prog (String × List Store) (Mem × List Store)

def ExecM.panic {α : Type} (msg : String) : ExecM α := (Vm.panic msg : VmM α).beside

def record (e : Store) : ExecM Unit := Prog.modify fun s => (s.1, e :: s.2)

/-- `memmove` to the kernel's address of a page. The text of the kernel is write protected, and
the kernel maps no memory above `PHYSTOP`. -/
def storeBytes (k : Image) (f off : ℕ) (bytes : List UInt8) : VmM Unit :=
  if bytes = [] then return ()
  else if f * PGSIZE < PHYSTOP ∧ ¬ (EXTMEM ≤ f * PGSIZE ∧ f * PGSIZE < v2p k.data) then
    Prog.modify fun s => s.setPage f ((s.page f).write off bytes)
  else panic "trap"

/-- The loop of `loaduvm` for a segment of `filesz` bytes, where `sz` is the size of the image;
whether all bytes could be read. -/
def loadPages (k : Image) (file : ProgFile) (pgdir sz : ℕ) (ph : ProgHeader) : ℕ → ℕ → ExecM Bool
  | 0, _ => return true
  | fuel + 1, i =>
    if i < ph.filesz then do
      match ← (walkpgdir pgdir ((ph.vaddr + i) % 2 ^ 32) false).beside with
      | none => ExecM.panic "loaduvm: address should exist"
      | some (t, j) => do
        let pte ← (wordAt t j).beside
        match file.readi ((ph.off + i) % 2 ^ 32) (min (ph.filesz - i) PGSIZE) with
        | none => return false
        | some bytes => do
          record ⟨(ph.vaddr + i) % 2 ^ 32, bytes.length, pte, sz⟩
          (storeBytes k (pte / PGSIZE) 0 bytes).beside
          if bytes.length = min (ph.filesz - i) PGSIZE then
            loadPages k file pgdir sz ph fuel ((i + PGSIZE) % 2 ^ 32)
          else return false
    else return true

def loaduvm (k : Image) (file : ProgFile) (pgdir sz : ℕ) (ph : ProgHeader) : ExecM Bool :=
  if ph.vaddr % PGSIZE ≠ 0 then ExecM.panic "loaduvm: addr must be page aligned"
  else loadPages k file pgdir sz ph (2 ^ 20) 0

/-- The loop of `exec` over `n` program headers from `off` on; the size of the image. -/
def loadSegments (k : Image) (file : ProgFile) (pgdir : ℕ) : ℕ → ℕ → ℕ → ExecM (Option ℕ)
  | 0, _, sz => return some sz
  | n + 1, off, sz =>
    match file.readi off ProgHeader.size with
    | none => return none
    | some l =>
      if l.length ≠ ProgHeader.size then return none
      else if (ProgHeader.ofBytes l).type ≠ ELF_PROG_LOAD then
        loadSegments k file pgdir n ((off + ProgHeader.size) % 2 ^ 32) sz
      else if (ProgHeader.ofBytes l).memsz < (ProgHeader.ofBytes l).filesz then return none
      else do
        let sz ← (allocuvm k pgdir sz
          (((ProgHeader.ofBytes l).vaddr + (ProgHeader.ofBytes l).memsz) % 2 ^ 32)).beside
        if sz = 0 then return none
        else do
          let ok ← loaduvm k file pgdir sz (ProgHeader.ofBytes l)
          if ok then loadSegments k file pgdir n ((off + ProgHeader.size) % 2 ^ 32) sz
          else return none

/-- The kernel address of a user page. Without a page table it dereferences a null pointer. -/
def uva2ka (pgdir uva : ℕ) : VmM (Option ℕ) := do
  match ← walkpgdir pgdir uva false with
  | none => panic "null pte"
  | some (t, i) => do
    let pte ← wordAt t i
    return if pte % 2 = 0 then none else if pte / PTE_U % 2 = 0 then none else some (pte / PGSIZE)

def copyoutFrom (k : Image) (pgdir : ℕ) : ℕ → ℕ → List UInt8 → VmM Bool
  | 0, _, _ => return true
  | fuel + 1, va, bytes =>
    if bytes = [] then return true
    else do
      match ← uva2ka pgdir (PGROUNDDOWN va) with
      | none => return false
      | some f => do
        storeBytes k f (va - PGROUNDDOWN va) (bytes.take (PGSIZE - (va - PGROUNDDOWN va)))
        copyoutFrom k pgdir fuel ((PGROUNDDOWN va + PGSIZE) % 2 ^ 32)
          (bytes.drop (PGSIZE - (va - PGROUNDDOWN va)))

def copyout (k : Image) (pgdir va : ℕ) (bytes : List UInt8) : VmM Bool :=
  copyoutFrom k pgdir (bytes.length + 1) va bytes

/-- Push the argument strings, with their addresses; `argc` of them are there already. -/
def pushStrings (k : Image) (pgdir : ℕ) :
    List (List UInt8) → ℕ → ℕ → List ℕ → VmM (Option (ℕ × List ℕ))
  | [], _, sp, ps => return some (sp, ps)
  | a :: as, argc, sp, ps =>
    if argc ≥ MAXARG then return none
    else do
      let ok ← copyout k pgdir ((sp + 2 ^ 32 - (a.length + 1)) % 2 ^ 32 / 4 * 4) (a ++ [0])
      if ok then
        pushStrings k pgdir as (argc + 1) ((sp + 2 ^ 32 - (a.length + 1)) % 2 ^ 32 / 4 * 4)
          (ps ++ [(sp + 2 ^ 32 - (a.length + 1)) % 2 ^ 32 / 4 * 4])
      else return none

/-- `ustack`: the fake return address, `argc`, the address of `argv`, and `argv` itself. -/
def ustack (sp : ℕ) (ps : List ℕ) : List UInt8 :=
  ([2 ^ 32 - 1, ps.length, sp + 2 ^ 32 - (ps.length + 1) * 4] ++ ps ++ [0]).flatMap
    (Bytes.natBytes 4)

def pushArgs (k : Image) (pgdir sz : ℕ) (argv : List (List UInt8)) : VmM (Option ℕ) := do
  match ← pushStrings k pgdir argv 0 sz [] with
  | none => return none
  | some (sp, ps) => do
    let ok ← copyout k pgdir ((sp + 2 ^ 32 - (3 + ps.length + 1) * 4) % 2 ^ 32) (ustack sp ps)
    return if ok then some ((sp + 2 ^ 32 - (3 + ps.length + 1) * 4) % 2 ^ 32) else none

/-- Two pages after the program, the first inaccessible and the second for the stack; the size
and the stack pointer of the image. -/
def makeStack (k : Image) (pgdir sz : ℕ) (argv : List (List UInt8)) : VmM (Option (ℕ × ℕ)) := do
  let sz ← allocuvm k pgdir (PGROUNDUP sz) ((PGROUNDUP sz + 2 * PGSIZE) % 2 ^ 32)
  if sz = 0 then return none
  else do
    clearpteu pgdir ((sz + 2 ^ 32 - 2 * PGSIZE) % 2 ^ 32)
    match ← pushArgs k pgdir sz argv with
    | none => return none
    | some sp => return some (sz, sp)

def makeImage (k : Image) (file : ProgFile) (hdr : ElfHeader) (pgdir : ℕ)
    (argv : List (List UInt8)) : ExecM (Option (ℕ × ℕ)) := do
  match ← loadSegments k file pgdir hdr.phnum hdr.phoff 0 with
  | none => return none
  | some sz => (makeStack k pgdir sz argv).beside

/-- `exec` of a file by a process with the directory `oldpgdir`: the directory, the size and the
stack pointer of the new image, or `none` for -1. -/
def exec (k : Image) (oldpgdir : ℕ) (file : ProgFile) (argv : List (List UInt8)) :
    ExecM (Option (ℕ × ℕ × ℕ)) :=
  match file.readi 0 ElfHeader.size with
  | none => return none
  | some l =>
    if l.length < ElfHeader.size then return none
    else if (ElfHeader.ofBytes l).magic ≠ ELF_MAGIC then return none
    else do
      match ← (setupkvm k).beside with
      | none => return none
      | some pgdir => do
        match ← makeImage k file (ElfHeader.ofBytes l) pgdir argv with
        | none => do
          (freevm k pgdir).beside
          return none
        | some (sz, sp) => do
          (freevm k oldpgdir).beside
          return some (pgdir, sz, sp)

end Vm
end Xv6
