import Xv6.Lib.Bytes

/-! Constants of `param.h` and `fs.h`, and the block type shared by all layers. -/
namespace Xv6

def MAXOPBLOCKS : ℕ := 10

def LOGSIZE : ℕ := MAXOPBLOCKS * 3

def NBUF : ℕ := MAXOPBLOCKS * 3

def ROOTDEV : ℕ := 1

def NPROC : ℕ := 64

instance : NeZero NPROC := ⟨by decide⟩

def NOFILE : ℕ := 16

def BSIZE : ℕ := 512

structure Superblock where
  size : ℕ
  nblocks : ℕ
  ninodes : ℕ
  nlog : ℕ
  deriving DecidableEq, Repr

def mkfsSb : Superblock := ⟨1024, 995 - LOGSIZE, 200, LOGSIZE⟩

abbrev Block := Bytes BSIZE

abbrev Disk := ℕ → Block

end Xv6
