import Xv6.Fs.Alloc

/-! `mkfs.c`: how an image is built from a list of files. -/
namespace Xv6

/-- The image file and the counters of `mkfs`. `given` records the blocks handed to files. -/
structure Mkfs where
  img : Disk
  nsect : ℕ
  freeblock : ℕ
  usedblocks : ℕ
  freeinode : ℕ
  given : List ℕ

abbrev MkfsM := Prog String Mkfs

namespace Mkfs

/-- The geometry `main` writes into the super block. -/
def size : ℕ := 1024

def ninodes : ℕ := 200

def nlog : ℕ := LOGSIZE

def nblocks : ℕ := 995 - LOGSIZE

def bitblocks : ℕ := size / (512 * 8) + 1

def assert (p : Prop) [Decidable p] : MkfsM Unit :=
  if p then pure () else Prog.stop "assert"

def wsect (sec : ℕ) (buf : Block) : MkfsM Unit :=
  Prog.modify fun s =>
    { s with img := Function.update s.img sec buf, nsect := max s.nsect (sec + 1) }

/-- Reading past the end of the image file fails. -/
def rsect (sec : ℕ) : MkfsM Block := do
  let s ← Prog.get
  if sec < s.nsect then return s.img sec else Prog.stop "read"

def i2b (inum : ℕ) : ℕ := inum / IPB + 2

def winode (inum : ℕ) (d : Dinode) : MkfsM Unit := do
  let buf ← rsect (i2b inum)
  wsect (i2b inum) (putDinode buf (inum % IPB) d)

def rinode (inum : ℕ) : MkfsM Dinode := do
  let buf ← rsect (i2b inum)
  return getDinode buf (inum % IPB)

def ialloc (type : ℕ) : MkfsM ℕ := do
  let s ← Prog.get
  let inum := s.freeinode
  Prog.modify fun s => { s with freeinode := s.freeinode + 1 }
  winode inum { Dinode.zero with type := type, nlink := 1 }
  return inum

def takeBlock : MkfsM ℕ := do
  let s ← Prog.get
  Prog.modify fun s => { s with
    freeblock := s.freeblock + 1
    usedblocks := s.usedblocks + 1
    given := s.freeblock :: s.given }
  return s.freeblock

/-- The block of index `fbn` of a file, allocated if the file has none there yet. -/
def blockFor (din : Dinode) (fbn : ℕ) : MkfsM (Dinode × ℕ) :=
  if fbn < NDIRECT then
    if din.addr fbn = 0 then do
      let b ← takeBlock
      return (din.setAddr fbn b, b)
    else return (din, din.addr fbn)
  else do
    let din ← if din.addr NDIRECT = 0 then do
        let b ← takeBlock
        pure (din.setAddr NDIRECT b)
      else pure din
    let indirect ← rsect (din.addr NDIRECT)
    let j := fbn - NDIRECT
    if indirect.word (4 * j) = 0 then do
      let b ← takeBlock
      wsect (din.addr NDIRECT) (indirect.setWord (4 * j) b)
      return (din, b)
    else return (din, indirect.word (4 * j))

/-- The loop of `iappend` with `p` still to be written at `off`. -/
def iappendLoop : ℕ → Dinode → ℕ → List UInt8 → MkfsM (Dinode × ℕ)
  | 0, din, off, _ => return (din, off)
  | fuel + 1, din, off, p =>
    if p.length > 0 then do
      let fbn := off / 512
      assert (fbn < MAXFILE)
      let (din, x) ← blockFor din fbn
      let n1 := min p.length ((fbn + 1) * 512 - off)
      let buf ← rsect x
      wsect x (buf.write (off - fbn * 512) (p.take n1))
      iappendLoop fuel din (off + n1) (p.drop n1)
    else return (din, off)

def iappend (inum : ℕ) (p : List UInt8) : MkfsM Unit := do
  let din ← rinode inum
  let (din, off) ← iappendLoop p.length din din.size p
  winode inum { din with size := off }

def dirent (inum : ℕ) (name : List UInt8) : List UInt8 :=
  Bytes.natBytes 2 inum ++ (name.take DIRSIZ ++ List.replicate (DIRSIZ - name.length) 0)

def bitmap (used : ℕ) : Block :=
  (List.range used).foldl (fun buf i => buf.setBit i) Bytes.zero

def balloc (used : ℕ) : MkfsM Unit := do
  assert (used < 512 * 8)
  wsect (ninodes / IPB + 3) (bitmap used)

/-- Write the file in pieces of at most 512 bytes. -/
def copyFile (inum : ℕ) : ℕ → List UInt8 → MkfsM Unit
  | 0, _ => return ()
  | fuel + 1, data =>
    if data.length > 0 then do
      iappend inum (data.take 512)
      copyFile inum fuel (data.drop 512)
    else return ()

/-- One file of the command line; a leading `_` is left out of its name. -/
def addFile (rootino : ℕ) (name data : List UInt8) : MkfsM Unit := do
  assert ((47 : UInt8) ∉ name)
  let name := if name.head? = some 95 then name.tail else name
  let inum ← ialloc T_FILE
  iappend rootino (dirent inum name)
  copyFile inum data.length data

def addFiles (rootino : ℕ) : List (List UInt8 × List UInt8) → MkfsM Unit
  | [] => return ()
  | (name, data) :: files => do
    addFile rootino name data
    addFiles rootino files

def wsectAll : ℕ → ℕ → MkfsM Unit
  | 0, _ => return ()
  | n + 1, i => do
    wsect i Bytes.zero
    wsectAll n (i + 1)

def start : Mkfs where
  img := fun _ => Bytes.zero
  nsect := 0
  freeblock := ninodes / IPB + 3 + bitblocks
  usedblocks := ninodes / IPB + 3 + bitblocks
  freeinode := 1
  given := []

def sbBlock : Block := Bytes.zero.setWords 0 [size, nblocks, ninodes, nlog]

def main (files : List (List UInt8 × List UInt8)) : MkfsM Unit := do
  let s ← Prog.get
  assert (nblocks + s.usedblocks + nlog = size)
  wsectAll (nblocks + s.usedblocks + nlog) 0
  wsect 1 sbBlock
  let rootino ← ialloc T_DIR
  assert (rootino = ROOTINO)
  iappend rootino (dirent rootino [46])
  iappend rootino (dirent rootino [46, 46])
  addFiles rootino files
  let din ← rinode rootino
  winode rootino { din with size := (din.size / BSIZE + 1) * BSIZE }
  let s ← Prog.get
  balloc s.usedblocks

end Mkfs

end Xv6
