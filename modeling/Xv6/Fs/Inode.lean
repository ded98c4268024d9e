import Xv6.Fs.Block

/-! Inodes: the cache of in-memory inodes and their contents, as in `fs.c`. -/
namespace Xv6

def NDEV : ℕ := 10

/-- What the drivers of `devsw` return, by major number, and what pipes return; a read also
gives the bytes delivered. -/
structure Devsw where
  read : ℕ → Option (ℕ → ℤ × List UInt8)
  write : ℕ → Option (List UInt8 → ℤ)
  piperead : ℕ → ℤ × List UInt8
  pipewrite : List UInt8 → ℤ

def Fs.setInode (s : Fs) (ip : InodeId) (i : Inode) : Fs :=
  { s with inode := Function.update s.inode ip i }

def inodeAt (ip : InodeId) : FsM Inode := do
  let s ← Prog.get
  return s.inode ip

def modifyInode (ip : InodeId) (f : Inode → Inode) : FsM Unit :=
  Prog.modify fun s => s.setInode ip (f (s.inode ip))

def setDin (ip : InodeId) (f : Dinode → Dinode) : FsM Unit :=
  modifyInode ip fun i => { i with din := f i.din }

/-- The loop of `iget`: the cached entry, or else the first empty one. -/
def igetScan (s : Fs) (dev inum : ℕ) : List InodeId → Option InodeId → InodeId ⊕ Option InodeId
  | [], empty => .inr empty
  | ip :: rest, empty =>
    if (s.inode ip).ref > 0 ∧ (s.inode ip).dev = dev ∧ (s.inode ip).inum = inum then .inl ip
    else igetScan s dev inum rest (if empty = none ∧ (s.inode ip).ref = 0 then some ip else empty)

def iget (dev inum : ℕ) : FsM InodeId := do
  let s ← Prog.get
  match igetScan s dev inum (List.finRange NINODE) none with
  | .inl ip =>
    modifyInode ip fun i => { i with ref := i.ref + 1 }
    return ip
  | .inr none => panic "iget: no inodes"
  | .inr (some ip) =>
    modifyInode ip fun i =>
      { i with dev := dev, inum := inum, ref := 1, busy := false, valid := false }
    return ip

def idup (ip : InodeId) : FsM InodeId := do
  modifyInode ip fun i => { i with ref := i.ref + 1 }
  return ip

/-- The loop of `ialloc` from `inum` on. -/
def iallocFrom (sb : Superblock) (dev type : ℕ) : ℕ → ℕ → FsM InodeId
  | 0, _ => panic "ialloc: no inodes"
  | fuel + 1, inum =>
    if inum < sb.ninodes then do
      let bp ← bread dev (IBLOCK inum)
      if (getDinode bp (inum % IPB)).type = 0 then
        logWrite (IBLOCK inum) (putDinode bp (inum % IPB) { Dinode.zero with type := type })
        iget dev inum
      else iallocFrom sb dev type fuel (inum + 1)
    else panic "ialloc: no inodes"

def ialloc (dev type : ℕ) : FsM InodeId := do
  let sb ← readsb dev
  iallocFrom sb dev type sb.ninodes 1

def iupdate (ip : InodeId) : FsM Unit := do
  let i ← inodeAt ip
  let bp ← bread i.dev (IBLOCK i.inum)
  logWrite (IBLOCK i.inum) (putDinode bp (i.inum % IPB) i.din)

def ilock (ip : InodeId) : FsM Unit := do
  let i ← inodeAt ip
  if i.ref < 1 then panic "ilock"
  else if i.busy then Prog.stop .sleep
  else do
    modifyInode ip fun i => { i with busy := true }
    if i.valid then return ()
    else do
      let bp ← bread i.dev (IBLOCK i.inum)
      let din := getDinode bp (i.inum % IPB)
      modifyInode ip fun i => { i with din := din, valid := true }
      if din.type = 0 then panic "ilock: no type" else return ()

def iunlock (ip : InodeId) : FsM Unit := do
  let i ← inodeAt ip
  if i.busy = false ∨ i.ref < 1 then panic "iunlock"
  else modifyInode ip fun i => { i with busy := false }

/-- The disk block address of the `bn`th block of the inode, allocated if there is none. -/
def bmap (ip : InodeId) (bn : ℕ) : FsM ℕ := do
  let i ← inodeAt ip
  if bn < NDIRECT then
    if i.din.addr bn = 0 then do
      let b ← balloc i.dev
      setDin ip fun d => d.setAddr bn b
      return b
    else return i.din.addr bn
  else
    let j := bn - NDIRECT
    if j < NINDIRECT then do
      let ind ← if i.din.addr NDIRECT = 0 then do
          let b ← balloc i.dev
          setDin ip fun d => d.setAddr NDIRECT b
          pure b
        else pure (i.din.addr NDIRECT)
      let bp ← bread i.dev ind
      if bp.word (4 * j) = 0 then do
        let b ← balloc i.dev
        logWrite ind (bp.setWord (4 * j) b)
        return b
      else return bp.word (4 * j)
    else panic "bmap: out of range"

def itrunc (ip : InodeId) : FsM Unit := do
  (List.range NDIRECT).forM fun k => do
    let i ← inodeAt ip
    if i.din.addr k ≠ 0 then do
      bfree i.dev (i.din.addr k)
      setDin ip fun d => d.setAddr k 0
    else pure ()
  let i ← inodeAt ip
  if i.din.addr NDIRECT ≠ 0 then do
    let bp ← bread i.dev (i.din.addr NDIRECT)
    (List.range NINDIRECT).forM fun j =>
      if bp.word (4 * j) ≠ 0 then bfree i.dev (bp.word (4 * j)) else pure ()
    bfree i.dev (i.din.addr NDIRECT)
    setDin ip fun d => d.setAddr NDIRECT 0
  else pure ()
  setDin ip fun d => { d with size := 0 }
  iupdate ip

/-- Drop a reference; the last one frees an inode that has no links. -/
def iput (ip : InodeId) : FsM Unit := do
  let i ← inodeAt ip
  if i.ref = 1 ∧ i.valid ∧ i.din.nlink = 0 then
    if i.busy then panic "iput busy"
    else do
      modifyInode ip fun i => { i with busy := true }
      itrunc ip
      setDin ip fun d => { d with type := 0 }
      iupdate ip
      modifyInode ip fun i => { i with busy := false, valid := false }
  else pure ()
  modifyInode ip fun i => { i with ref := i.ref - 1 }

def iunlockput (ip : InodeId) : FsM Unit := do
  iunlock ip
  iput ip

/-- The loop of `readi`: the bytes delivered for `n` still to be read at `off`. -/
def readiLoop (ip : InodeId) : ℕ → ℕ → ℕ → FsM (List UInt8)
  | 0, _, _ => return []
  | fuel + 1, off, n =>
    if n > 0 then do
      let i ← inodeAt ip
      let b ← bmap ip (off / BSIZE)
      let bp ← bread i.dev b
      let m := min n (BSIZE - off % BSIZE)
      let rest ← readiLoop ip fuel (off + m) (n - m)
      return bp.slice (off % BSIZE) m ++ rest
    else return []

/-- Read data from the inode: the result and the bytes delivered. -/
def readi (devsw : Devsw) (ip : InodeId) (off n : ℕ) : FsM (ℤ × List UInt8) := do
  let i ← inodeAt ip
  if i.din.type = T_DEV then
    if 2 ^ 15 ≤ i.din.major ∨ NDEV ≤ i.din.major then return (-1, [])
    else match devsw.read i.din.major with
      | none => return (-1, [])
      | some read => return read n
  else if off > i.din.size ∨ (off + n) % 2 ^ 32 < off then return (-1, [])
  else do
    let n := if off + n > i.din.size then i.din.size - off else n
    let bytes ← readiLoop ip n off n
    return (n, bytes)

/-- The loop of `writei`, with `src` still to be written at `off`; the final offset. -/
def writeiLoop (ip : InodeId) : ℕ → ℕ → List UInt8 → FsM ℕ
  | 0, off, _ => return off
  | fuel + 1, off, src =>
    if src.length > 0 then do
      let i ← inodeAt ip
      let b ← bmap ip (off / BSIZE)
      let bp ← bread i.dev b
      let m := min src.length (BSIZE - off % BSIZE)
      logWrite b (bp.write (off % BSIZE) (src.take m))
      writeiLoop ip fuel (off + m) (src.drop m)
    else return off

def writei (devsw : Devsw) (ip : InodeId) (src : List UInt8) (off : ℕ) : FsM ℤ := do
  let i ← inodeAt ip
  if i.din.type = T_DEV then
    if 2 ^ 15 ≤ i.din.major ∨ NDEV ≤ i.din.major then return -1
    else match devsw.write i.din.major with
      | none => return -1
      | some write => return write src
  else if off > i.din.size ∨ (off + src.length) % 2 ^ 32 < off then return -1
  else if off + src.length > MAXFILE * BSIZE then return -1
  else do
    let off ← writeiLoop ip src.length off src
    let i ← inodeAt ip
    if src.length > 0 ∧ off > i.din.size then do
      setDin ip fun d => { d with size := off }
      iupdate ip
    else pure ()
    return src.length

end Xv6
