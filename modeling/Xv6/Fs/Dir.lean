import Xv6.Fs.Inode

/-! Directories and path names, as in `fs.c` and `string.c`. A C string is the list of its
bytes; what lies after the end of the list is the terminator. -/
namespace Xv6

def DIRENT : ℕ := 16

def strncmp : ℕ → List UInt8 → List UInt8 → ℤ
  | 0, _, _ => 0
  | n + 1, p, q =>
    if p.headD 0 ≠ 0 ∧ p.headD 0 = q.headD 0 then strncmp n p.tail q.tail
    else (p.headD 0).toNat - (q.headD 0).toNat

/-- The `n` bytes that `strncpy` stores. -/
def strncpy : ℕ → List UInt8 → List UInt8
  | 0, _ => []
  | n + 1, t =>
    if t.headD 0 = 0 then List.replicate (n + 1) 0 else t.headD 0 :: strncpy n t.tail

def namecmp (s t : List UInt8) : ℤ := strncmp DIRSIZ s t

def dirent (inum : ℕ) (name : List UInt8) : List UInt8 :=
  Bytes.natBytes 2 inum ++ strncpy DIRSIZ name

def deInum (de : List UInt8) : ℕ := Bytes.bytesNat (de.take 2)

def deName (de : List UInt8) : List UInt8 := (de.drop 2).take DIRSIZ

/-- The loop of `dirlookup`: the inode number and the offset of the entry found. -/
def dirlookupFrom (devsw : Devsw) (dp : InodeId) (name : List UInt8) :
    ℕ → ℕ → FsM (Option (ℕ × ℕ))
  | 0, _ => return none
  | fuel + 1, off => do
    let i ← inodeAt dp
    if off < i.din.size then do
      let (r, de) ← readi devsw dp off DIRENT
      if r ≠ DIRENT then panic "dirlink read"
      else if deInum de = 0 then dirlookupFrom devsw dp name fuel (off + DIRENT)
      else if namecmp name (deName de) = 0 then return some (deInum de, off)
      else dirlookupFrom devsw dp name fuel (off + DIRENT)
    else return none

def dirlookup (devsw : Devsw) (dp : InodeId) (name : List UInt8) :
    FsM (Option (InodeId × ℕ)) := do
  let i ← inodeAt dp
  if i.din.type ≠ T_DIR then panic "dirlookup not DIR"
  else do
    let found ← dirlookupFrom devsw dp name (i.din.size / DIRENT + 1) 0
    match found with
    | none => return none
    | some (inum, off) => do
      let ip ← iget i.dev inum
      return some (ip, off)

/-- The loop of `dirlink`: the offset of the first empty entry, or the end. -/
def dirFreeFrom (devsw : Devsw) (dp : InodeId) : ℕ → ℕ → FsM ℕ
  | 0, off => return off
  | fuel + 1, off => do
    let i ← inodeAt dp
    if off < i.din.size then do
      let (r, de) ← readi devsw dp off DIRENT
      if r ≠ DIRENT then panic "dirlink read"
      else if deInum de = 0 then return off
      else dirFreeFrom devsw dp fuel (off + DIRENT)
    else return off

def dirlink (devsw : Devsw) (dp : InodeId) (name : List UInt8) (inum : ℕ) : FsM ℤ := do
  let found ← dirlookup devsw dp name
  match found with
  | some (ip, _) => do
    iput ip
    return -1
  | none => do
    let i ← inodeAt dp
    let off ← dirFreeFrom devsw dp (i.din.size / DIRENT + 1) 0
    let r ← writei devsw dp (dirent inum name) off
    if r ≠ DIRENT then panic "dirlink" else return 0

/-- The next path element and the path after it. -/
def skipelem (path : List UInt8) : Option (List UInt8 × List UInt8) :=
  let s := path.dropWhile (· = 47)
  if s = [] then none
  else some ((s.takeWhile (· ≠ 47)).take DIRSIZ, (s.dropWhile (· ≠ 47)).dropWhile (· = 47))

/-- The loop of `namex`. -/
def namexFrom (devsw : Devsw) (nameiparent : Bool) :
    ℕ → InodeId → List UInt8 → FsM (Option (InodeId × List UInt8))
  | 0, _, _ => return none
  | fuel + 1, ip, path =>
    match skipelem path with
    | none =>
      if nameiparent then do
        iput ip
        return none
      else return some (ip, [])
    | some (name, path) => do
      ilock ip
      let i ← inodeAt ip
      if i.din.type ≠ T_DIR then do
        iunlockput ip
        return none
      else if nameiparent ∧ path = [] then do
        iunlock ip
        return some (ip, name)
      else do
        let found ← dirlookup devsw ip name
        match found with
        | none => do
          iunlockput ip
          return none
        | some (next, _) => do
          iunlockput ip
          namexFrom devsw nameiparent fuel next path

/-- `proc`, which every system call has. -/
def myproc (p : Fin NPROC) : FsM Proc := do
  let s ← Prog.get
  match s.proc p with
  | some q => return q
  | none => panic "trap"

/-- Look up the inode for a path name, or that of its parent and the final element. -/
def namex (devsw : Devsw) (p : Fin NPROC) (path : List UInt8) (nameiparent : Bool) :
    FsM (Option (InodeId × List UInt8)) := do
  let ip ← if path.head? = some 47 then iget ROOTDEV ROOTINO
    else do
      let q ← myproc p
      idup q.cwd
  namexFrom devsw nameiparent (path.length + 1) ip path

def namei (devsw : Devsw) (p : Fin NPROC) (path : List UInt8) : FsM (Option InodeId) := do
  let r ← namex devsw p path false
  return r.map Prod.fst

def nameiparent (devsw : Devsw) (p : Fin NPROC) (path : List UInt8) :
    FsM (Option (InodeId × List UInt8)) :=
  namex devsw p path true

end Xv6
