import Xv6.Fs.Sysfile
import Xv6.Lib.Touching
import Xv6.Vm.Layout

/-! The arguments of system calls, as in `syscall.c`, and the user memory that `sys_read`,
`sys_write`, `sys_fstat` and `sys_pipe` touch through them. -/
namespace Xv6
namespace Args
open Touching

structure Caller where
  sz : ℕ
  esp : ℕ
  mem : ℕ → UInt8

/-- What a `struct file` refers to: a pipe with `avail` bytes to read and room for `room`
more before its reader is gone, a device with its pending input, or a file or directory. -/
inductive Target where
  | none
  | pipe (avail room : ℕ)
  | device (major : ℕ) (input : List UInt8)
  | inode (size : UInt32)

structure OpenFile where
  target : Target
  readable : Bool
  writable : Bool
  off : UInt32

def block (p n : ℕ) : List ℕ := (List.range n).map fun i => (p + i) % 2 ^ 32

def load (mem : ℕ → UInt8) (p n : ℕ) : ℕ := Bytes.bytesNat ((block p n).map mem)

def fetchint (c : Caller) (addr : ℕ) : Touching ℕ ℕ :=
  if addr ≥ c.sz ∨ (addr + 4) % 2 ^ 32 > c.sz then fail
  else do
    touch (block addr 4)
    return load c.mem addr 4

/-- The loop of `fetchstr`: the length of the string at `p`, reading from `s` on. -/
def fetchstrFrom (c : Caller) (p : ℕ) : ℕ → ℕ → Touching ℕ ℕ
  | 0, _ => fail
  | fuel + 1, s =>
    if s < c.sz then do
      touch [s]
      if c.mem s = 0 then return s - p else fetchstrFrom c p fuel (s + 1)
    else fail

def fetchstr (c : Caller) (addr : ℕ) : Touching ℕ ℕ :=
  if addr ≥ c.sz then fail else fetchstrFrom c addr (c.sz - addr + 1) addr

def argint (c : Caller) (n : ℕ) : Touching ℕ ℕ := fetchint c ((c.esp + 4 + 4 * n) % 2 ^ 32)

/-- `argptr`; the size is passed as the word that its C caller passes. -/
def argptr (c : Caller) (n size : ℕ) : Touching ℕ ℕ := do
  let i ← argint c n
  if i ≥ c.sz ∨ (i + size) % 2 ^ 32 > c.sz then fail else return i

def argstr (c : Caller) (n : ℕ) : Touching ℕ (ℕ × ℕ) := do
  let addr ← argint c n
  let len ← fetchstr c addr
  return (addr, len)

def argfd (c : Caller) (ofile : ℕ → Option OpenFile) (n : ℕ) : Touching ℕ OpenFile := do
  let fd ← argint c n
  if signed fd < 0 ∨ signed fd ≥ NOFILE then fail
  else match ofile fd with
    | none => fail
    | some f => return f

/-- The stores of the copy loop of `piperead`. -/
def piperead (addr : ℕ) (n : ℤ) : ℕ → ℕ → List ℕ
  | 0, _ => []
  | avail + 1, i => if i < n then (addr + i) % 2 ^ 32 :: piperead addr n avail (i + 1) else []

/-- The loads of `pipewrite`, which ends when the reader is gone. -/
def pipewrite (addr : ℕ) (n : ℤ) : ℕ → ℕ → List ℕ
  | 0, _ => []
  | room + 1, i => if i < n then (addr + i) % 2 ^ 32 :: pipewrite addr n room (i + 1) else []

/-- The stores of `consoleread`, until the process is killed waiting for input. -/
def consoleread (dst : ℕ) (n : ℤ) : List UInt8 → List ℕ
  | [] => []
  | c :: input =>
    if n > 0 then
      if c = 4 then []
      else dst % 2 ^ 32 :: if c = 10 then [] else consoleread (dst + 1) (n - 1) input
    else []

def consolewrite (buf : ℕ) (n : ℤ) : List ℕ := block buf n.toNat

/-- The loop of `readi` and of `writei` over user memory, with `n` bytes left. -/
def copyLoop : ℕ → ℕ → ℕ → ℕ → List ℕ
  | 0, _, _, _ => []
  | fuel + 1, p, off, n =>
    if n > 0 then
      let m := min n (BSIZE - off % BSIZE)
      block p m ++ copyLoop fuel (p + m) (off + m) (n - m)
    else []

def readi (size dst off n : ℕ) : List ℕ :=
  if off > size ∨ (off + n) % 2 ^ 32 < off then []
  else
    let n := if (off + n) % 2 ^ 32 > size then size - off else n
    copyLoop n dst off n

/-- The loads of `writei` from user memory, and whether it succeeds. -/
def writei (size src off n : ℕ) : List ℕ × Bool :=
  if off > size ∨ (off + n) % 2 ^ 32 < off then ([], false)
  else if (off + n) % 2 ^ 32 > MAXFILE * BSIZE then ([], false)
  else (copyLoop n src off n, true)

def fileread (devread : ℕ → Bool) (f : OpenFile) (addr n : ℕ) : Touching ℕ Unit :=
  if f.readable = false then fail
  else match f.target with
  | .pipe avail _ => touch (piperead addr (signed n) avail 0)
  | .device major input =>
    if 2 ^ 15 ≤ major ∨ NDEV ≤ major ∨ devread major = false then fail
    else touch (consoleread addr (signed n) input)
  | .inode size => touch (readi size.toNat addr f.off.toNat n)
  | .none => fail

/-- The loop of `filewrite` on a file or directory with `n` bytes left at `i`. -/
def filewriteFrom : ℕ → ℕ → ℕ → ℕ → ℕ → Touching ℕ Unit
  | 0, _, _, _, _ => pure ()
  | fuel + 1, size, addr, off, n =>
    if n > 0 then do
      let n1 := min n filewriteMax
      let r := writei size addr off n1
      touch r.1
      if r.2 = false then fail
      else filewriteFrom fuel (max size (off + n1)) (addr + n1) (off + n1) (n - n1)
    else pure ()

def devwriteFrom : ℕ → ℕ → ℕ → Touching ℕ Unit
  | 0, _, _ => pure ()
  | fuel + 1, addr, n =>
    if n > 0 then do
      let n1 := min n filewriteMax
      touch (consolewrite addr n1)
      devwriteFrom fuel (addr + n1) (n - n1)
    else pure ()

def filewrite (devwrite : ℕ → Bool) (f : OpenFile) (addr n : ℕ) : Touching ℕ Unit :=
  if f.writable = false then fail
  else match f.target with
  | .pipe _ room => touch (pipewrite addr (signed n) room 0)
  | .device major _ =>
    if 2 ^ 15 ≤ major ∨ NDEV ≤ major ∨ devwrite major = false then fail
    else devwriteFrom (signed n).toNat addr (signed n).toNat
  | .inode size => filewriteFrom (signed n).toNat size.toNat addr f.off.toNat (signed n).toNat
  | .none => fail

/-- `filestat`: the stores of `stati` to the fields of `struct stat`. -/
def filestat (f : OpenFile) (st : ℕ) : Touching ℕ Unit :=
  match f.target with
  | .device _ _ | .inode _ =>
    touch (block (st + 4) 4 ++ block (st + 8) 4 ++ block st 2 ++ block (st + 12) 2 ++
      block (st + 16) 4)
  | _ => fail

def sysRead (devread : ℕ → Bool) (c : Caller) (ofile : ℕ → Option OpenFile) : Touching ℕ Unit := do
  let f ← argfd c ofile 0
  let n ← argint c 2
  let p ← argptr c 1 n
  fileread devread f p n

def sysWrite (devwrite : ℕ → Bool) (c : Caller) (ofile : ℕ → Option OpenFile) :
    Touching ℕ Unit := do
  let f ← argfd c ofile 0
  let n ← argint c 2
  let p ← argptr c 1 n
  filewrite devwrite f p n

def sysFstat (c : Caller) (ofile : ℕ → Option OpenFile) : Touching ℕ Unit := do
  let f ← argfd c ofile 0
  let st ← argptr c 1 20
  filestat f st

/-- `sys_pipe`; `made` says whether the pipe and its two descriptors could be had. -/
def sysPipe (c : Caller) (made : Bool) : Touching ℕ Unit := do
  let fd ← argptr c 0 8
  if made = false then fail else touch (block fd 4 ++ block (fd + 4) 4)

end Args
end Xv6
