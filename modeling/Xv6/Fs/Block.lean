import Xv6.Fs.Layout
import Xv6.Lib.Prog
import Mathlib.Data.Finset.Insert

/-! The state of the file system and the block allocator of `fs.c`. The buffer cache, the log
and the disk appear as the flat block store they implement. -/
namespace Xv6

def NFILE : ℕ := 100

def NINODE : ℕ := 50

instance : NeZero NINODE := ⟨by decide⟩

instance : NeZero NFILE := ⟨by decide⟩

abbrev InodeId := Fin NINODE

abbrev FileId := Fin NFILE

structure Inode where
  dev : ℕ
  inum : ℕ
  ref : ℤ
  busy : Bool
  valid : Bool
  din : Dinode

inductive FdType where
  | none
  | pipe
  | inode
  deriving DecidableEq, Repr

structure File where
  type : FdType
  ref : ℤ
  readable : Bool
  writable : Bool
  ip : InodeId
  off : ℕ

/-- The part of `struct proc` that refers to files. -/
structure Proc where
  ofile : Fin NOFILE → Option FileId
  cwd : InodeId

/-- The block store, the inode cache, the file table and the processes. `logged` holds the
sectors passed to `log_write` since the last `begin_op`, and `ops` those of each operation
that has ended, latest first. -/
structure Fs where
  disk : Disk
  inode : InodeId → Inode
  file : FileId → File
  proc : Fin NPROC → Option Proc
  logged : Finset ℕ
  ops : List (Finset ℕ)

/-- After boot on the given disk, before the first process. -/
def Fs.boot (disk : Disk) : Fs where
  disk := disk
  inode := fun _ => ⟨0, 0, 0, false, false, Dinode.zero⟩
  file := fun _ => ⟨.none, 0, false, false, 0, 0⟩
  proc := fun _ => none
  logged := ∅
  ops := []

/-- Why a system call does not return: the kernel panicked, or the process sleeps on an
inode that stays locked. -/
inductive Stop where
  | panic (msg : String)
  | sleep
  deriving DecidableEq, Repr

abbrev FsM := Prog Stop Fs

def panic {α : Type} (msg : String) : FsM α := Prog.stop (.panic msg)

def beginOp : FsM Unit := Prog.modify fun s => { s with logged := ∅ }

def endOp : FsM Unit := Prog.modify fun s => { s with logged := ∅, ops := s.logged :: s.ops }

def bread (dev sector : ℕ) : FsM Block := do
  let s ← Prog.get
  if dev ≠ ROOTDEV then panic "iderw: request not for disk 1" else return s.disk sector

/-- `log_write` of a buffer with new contents, and its `brelse`. -/
def logWrite (sector : ℕ) (b : Block) : FsM Unit :=
  Prog.modify fun s =>
    { s with disk := Function.update s.disk sector b, logged := insert sector s.logged }

def readsb (dev : ℕ) : FsM Superblock := do
  let b ← bread dev 1
  return getSb b

def bzero (dev bno : ℕ) : FsM Unit := do
  let _ ← bread dev bno
  logWrite bno Bytes.zero

/-- The inner loop of `balloc`: the first clear bit of a bitmap block from `bi` on. -/
def findClear (bp : Block) (size b : ℕ) : ℕ → ℕ → Option ℕ
  | 0, _ => none
  | fuel + 1, bi =>
    if bi < BPB ∧ b + bi < size then
      if bp.bit bi = false then some bi else findClear bp size b fuel (bi + 1)
    else none

/-- The outer loop of `balloc`. -/
def ballocFrom (sb : Superblock) (dev : ℕ) : ℕ → ℕ → FsM ℕ
  | 0, _ => panic "balloc: out of blocks"
  | fuel + 1, b =>
    if b < sb.size then do
      let bp ← bread dev (BBLOCK b sb.ninodes)
      match findClear bp sb.size b (BPB + 1) 0 with
      | some bi =>
        logWrite (BBLOCK b sb.ninodes) (bp.setBit bi)
        bzero dev (b + bi)
        return b + bi
      | none => ballocFrom sb dev fuel (b + BPB)
    else panic "balloc: out of blocks"

def balloc (dev : ℕ) : FsM ℕ := do
  let sb ← readsb dev
  ballocFrom sb dev (sb.size / BPB + 2) 0

def bfree (dev b : ℕ) : FsM Unit := do
  let sb ← readsb dev
  let bp ← bread dev (BBLOCK b sb.ninodes)
  let bi := b % BPB
  if bp.bit bi = false then panic "freeing free block"
  else logWrite (BBLOCK b sb.ninodes) (bp.clearBit bi)

end Xv6
