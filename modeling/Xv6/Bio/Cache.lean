import Xv6.Log.Group
import Xv6.Lib.Ring

/-! The buffer cache of `bio.c` over the disk of `memide.c`, and the processes that use it:
`bread`, `bwrite`, `brelse`, `log_write` and the commits of `log.c`. -/
namespace Xv6

/-- The device number of a buffer that caches nothing, `-1` as a `uint`. -/
def NODEV : ℕ := 2 ^ 32 - 1

abbrev BufId := Fin NBUF

/-- `struct buf` without its list pointers. -/
structure Buf where
  dev : ℕ
  sector : ℕ
  busy : Bool
  valid : Bool
  dirty : Bool
  data : Block

/-- `bcache` and the disk behind it. In the links `none` is `bcache.head`. -/
structure Bcache where
  buf : BufId → Buf
  links : Links (Option BufId)
  disk : Disk
  disksize : ℕ

namespace Bcache

def setBuf (c : Bcache) (b : BufId) (x : Buf) : Bcache :=
  { c with buf := Function.update c.buf b x }

def binit (disk : Disk) (disksize : ℕ) : Bcache where
  buf := fun _ => ⟨NODEV, 0, false, false, false, Bytes.zero⟩
  links := (List.finRange NBUF).foldl (fun k b => k.pushFront none (some b))
    ⟨fun _ => none, fun _ => none⟩
  disk := disk
  disksize := disksize

def scanNext (c : Bcache) (q : Buf → Bool) : Option BufId :=
  Links.walk c.links.next (fun b => q (c.buf b)) (NBUF + 1) (c.links.next none)

def scanPrev (c : Bcache) (q : Buf → Bool) : Option BufId :=
  Links.walk c.links.prev (fun b => q (c.buf b)) (NBUF + 1) (c.links.prev none)

inductive Bget where
  | got (c : Bcache) (b : BufId)
  | sleep (b : BufId)
  | panic (msg : String)

/-- One pass of the loop of `bget`, with `bcache.lock` held. -/
def bget (c : Bcache) (dev sector : ℕ) : Bget :=
  match c.scanNext fun x => x.dev == dev && x.sector == sector with
  | some b =>
    if (c.buf b).busy then .sleep b else .got (c.setBuf b { c.buf b with busy := true }) b
  | none =>
    match c.scanPrev fun x => !x.busy && !x.dirty with
    | some b =>
      .got (c.setBuf b ⟨dev, sector, true, false, false, (c.buf b).data⟩) b
    | none => .panic "bget: no buffers"

/-- `iderw` of `memide.c`. -/
def iderw (c : Bcache) (b : BufId) : Except String Bcache :=
  let x := c.buf b
  if ¬x.busy then .error "iderw: buf not busy"
  else if x.valid ∧ ¬x.dirty then .error "iderw: nothing to do"
  else if x.dev ≠ 1 then .error "iderw: request not for disk 1"
  else if x.sector ≥ c.disksize then .error "iderw: sector out of range"
  else if x.dirty then
    .ok { c.setBuf b { x with dirty := false, valid := true } with
      disk := Function.update c.disk x.sector x.data }
  else .ok (c.setBuf b { x with data := c.disk x.sector, valid := true })

/-- The part of `bread` after `bget`. -/
def fill (c : Bcache) (b : BufId) : Except String Bcache :=
  if (c.buf b).valid then .ok c else c.iderw b

def bwrite (c : Bcache) (b : BufId) : Except String Bcache :=
  if ¬(c.buf b).busy then .error "bwrite"
  else (c.setBuf b { c.buf b with dirty := true }).iderw b

def brelse (c : Bcache) (b : BufId) : Except String Bcache :=
  if ¬(c.buf b).busy then .error "brelse"
  else .ok { c.setBuf b { c.buf b with busy := false } with
    links := (c.links.unlink (some b)).pushFront none (some b) }

def setData (c : Bcache) (b : BufId) (data : Block) : Bcache :=
  c.setBuf b { c.buf b with data := data }

def pin (c : Bcache) (b : BufId) : Bcache := c.setBuf b { c.buf b with dirty := true }

end Bcache

/-- The two copying loops of `commit`: `write_log` and `install_trans`. -/
inductive Phase where
  | log
  | install
  deriving DecidableEq, Repr

/-- Who called `bread`: an ordinary process, the first or second call of a copying loop, or
`write_head`, which runs once with the header and once, with `erase`, to clear it. -/
inductive Caller where
  | user
  | first (ph : Phase) (tail : ℕ)
  | second (ph : Phase) (tail : ℕ) (b₁ : BufId)
  | head (erase : Bool)
  deriving DecidableEq, Repr

/-- The statements of `commit` between calls of `bread`. In a copying loop `dst` is written
and `src` only read. -/
inductive CommitAt where
  | start
  | loop (ph : Phase) (tail : ℕ)
  | copy (ph : Phase) (tail : ℕ) (dst src : BufId)
  | write (ph : Phase) (tail : ℕ) (dst src : BufId)
  | relSrc (ph : Phase) (tail : ℕ) (dst src : BufId)
  | relDst (ph : Phase) (tail : ℕ) (dst : BufId)
  | clear
  | putHead (erase : Bool) (b : BufId)
  | writeHead (erase : Bool) (b : BufId)
  | relHead (erase : Bool) (b : BufId)
  | done
  deriving DecidableEq, Repr

/-- Where a process stands. `logging` lies between the tests of `log_write` and its section
under `log.lock`. -/
inductive BioPc where
  | user
  | getting (k : Caller) (dev sector : ℕ)
  | asleep (k : Caller) (dev sector : ℕ) (b : BufId)
  | filling (k : Caller) (dev sector : ℕ) (b : BufId)
  | logging (b : BufId)
  | commit (c : CommitAt)
  deriving DecidableEq, Repr

def BioPc.wakeup (b : BufId) : BioPc → BioPc
  | .asleep k dev sector b' =>
    if b' = b then .getting k dev sector else .asleep k dev sector b'
  | c => c

/-- Whose store it was: that of an ordinary process, the same but on a sector in the header
of a running commit, or that of a commit. -/
inductive Origin where
  | process
  | racing
  | commit
  deriving DecidableEq, Repr

structure Store where
  sector : ℕ
  data : Block
  origin : Origin

/-- The flat block store: what each sector holds after the given stores, latest first. -/
def flat (disk : Disk) : List Store → Disk
  | [] => disk
  | w :: ws => Function.update (flat disk ws) w.sector w.data

/-- The cache, the header in memory, the processes, who holds which buffer, and who runs a
commit. `unsaved` marks buffers changed since they were last stored; `stores` and `released`
record the stores and the calls of `brelse`, latest first. -/
structure BioState (P : Type*) where
  cache : Bcache
  lh : List ℕ
  ops : List P
  committing : Option P
  pc : P → BioPc
  owner : BufId → Option P
  panic : Option String
  unsaved : BufId → Bool
  stores : List Store
  released : List BufId

namespace BioState

variable {P : Type*} [DecidableEq P]

def init (disk : Disk) (disksize : ℕ) : BioState P where
  cache := Bcache.binit disk disksize
  lh := []
  ops := []
  committing := none
  pc := fun _ => .user
  owner := fun _ => none
  panic := none
  unsaved := fun _ => false
  stores := []
  released := []

def setPc (s : BioState P) (p : P) (c : BioPc) : BioState P :=
  { s with pc := Function.update s.pc p c }

def raise (s : BioState P) (msg : String) : BioState P := { s with panic := some msg }

def andThen (s : BioState P) (p : P) (c : BioPc) : BioState P :=
  if s.panic = none then s.setPc p c else s

def onCache (s : BioState P) (r : Except String Bcache) (f : BioState P → BioState P) :
    BioState P :=
  match r with
  | .ok c => f { s with cache := c }
  | .error msg => s.raise msg

/-- What the caller of `bread` does with the buffer: a loop of `commit` reads its second
block, or has both. -/
def resume (s : BioState P) (k : Caller) (b : BufId) : BioPc :=
  match k with
  | .user => .user
  | .first ph tail => .getting (.second ph tail b) ROOTDEV (s.lh.getD tail 0)
  | .second .log tail b₁ => .commit (.copy .log tail b₁ b)
  | .second .install tail b₁ => .commit (.copy .install tail b b₁)
  | .head erase => .commit (.putHead erase b)

def get (s : BioState P) (p : P) (k : Caller) (dev sector : ℕ) : BioState P :=
  match s.cache.bget dev sector with
  | .got c b =>
    { s.setPc p (.filling k dev sector b) with
      cache := c, owner := Function.update s.owner b (some p) }
  | .sleep b => s.setPc p (.asleep k dev sector b)
  | .panic msg => s.raise msg

/-- The end of `bread`. -/
def fill (s : BioState P) (p : P) (k : Caller) (b : BufId) : BioState P :=
  s.onCache (s.cache.fill b) fun s => s.setPc p (s.resume k b)

def modify (s : BioState P) (b : BufId) (data : Block) : BioState P :=
  { s with cache := s.cache.setData b data, unsaved := Function.update s.unsaved b true }

def record (s : BioState P) (b : BufId) (o : Origin) : BioState P :=
  { s with
    unsaved := Function.update s.unsaved b false
    stores := ⟨(s.cache.buf b).sector, (s.cache.buf b).data, o⟩ :: s.stores }

def bwrite (s : BioState P) (b : BufId) (o : Origin) : BioState P :=
  s.onCache (s.cache.bwrite b) fun s => s.record b o

def brelse (s : BioState P) (b : BufId) : BioState P :=
  s.onCache (s.cache.brelse b) fun s =>
    { s with
      owner := Function.update s.owner b none
      released := b :: s.released
      pc := fun q => (s.pc q).wakeup b }

/-- The tests of `log_write`; `log.outstanding` is the number of operations. -/
def logCheck (log : LogArea) (s : BioState P) (p : P) (b : BufId) : BioState P :=
  if s.lh.length ≥ LOGSIZE ∨ (s.lh.length : ℤ) ≥ (log.size : ℤ) - 1 then
    s.raise "too big a transaction"
  else if s.ops.length < 1 then s.raise "log_write outside of trans"
  else s.setPc p (.logging b)

/-- The section of `log_write` under `log.lock`. -/
def logAppend (s : BioState P) (p : P) (b : BufId) : BioState P :=
  let o := if s.committing = none then Origin.process else .racing
  { (s.setPc p .user).record b o with
    cache := s.cache.pin b
    lh := GroupState.absorb s.lh (s.cache.buf b).sector }

/-- The first section of `end_op`. -/
def endOp (s : BioState P) (p : P) : BioState P :=
  let s := { s with ops := s.ops.erase p }
  if s.committing ≠ none then s.raise "log.committing"
  else if s.ops = [] then { s.setPc p (.commit .start) with committing := some p }
  else s

/-- One statement of `commit`, and the last section of `end_op`. -/
def commitStep (log : LogArea) (s : BioState P) (p : P) : CommitAt → BioState P
  | .start =>
    if 0 < s.lh.length then s.setPc p (.commit (.loop .log 0)) else s.setPc p (.commit .done)
  | .loop ph tail =>
    if tail < s.lh.length then s.setPc p (.getting (.first ph tail) ROOTDEV (log.start + tail + 1))
    else match ph with
      | .log => s.setPc p (.getting (.head false) ROOTDEV log.start)
      | .install => s.setPc p (.commit .clear)
  | .copy ph tail dst src =>
    (s.modify dst (s.cache.buf src).data).setPc p (.commit (.write ph tail dst src))
  | .write ph tail dst src => (s.bwrite dst .commit).andThen p (.commit (.relSrc ph tail dst src))
  | .relSrc ph tail dst src => (s.brelse src).andThen p (.commit (.relDst ph tail dst))
  | .relDst ph tail dst => (s.brelse dst).andThen p (.commit (.loop ph (tail + 1)))
  | .clear => { s.setPc p (.getting (.head true) ROOTDEV log.start) with lh := [] }
  | .putHead erase b =>
    (s.modify b (putHead (s.cache.buf b).data s.lh)).setPc p (.commit (.writeHead erase b))
  | .writeHead erase b => (s.bwrite b .commit).andThen p (.commit (.relHead erase b))
  | .relHead erase b =>
    (s.brelse b).andThen p (.commit (if erase then .done else .loop .install 0))
  | .done => { s.setPc p .user with committing := none }

def originOf (s : BioState P) (b : BufId) : Origin :=
  if s.committing ≠ none ∧ (s.cache.buf b).sector ∈ s.lh then .racing else .process

end BioState

/-- The steps of the processes. `wake` is a wake-up that does not come from `brelse`. -/
inductive BioAct (P : Type*) where
  | bread (p : P) (dev sector : ℕ)
  | get (p : P)
  | wake (p : P)
  | fill (p : P)
  | modify (p : P) (b : BufId) (data : Block)
  | logCheck (p : P) (b : BufId)
  | logAppend (p : P)
  | bwrite (p : P) (b : BufId)
  | brelse (p : P) (b : BufId)
  | beginOp (p : P)
  | endOp (p : P)
  | commit (p : P)

open BioState in
/-- A step of one process; a system that has panicked takes none. Processes change only
buffers they hold, and release none with a change that has not been stored. -/
def bioStep {P : Type*} [DecidableEq P] (log : LogArea) (s : BioState P) (a : BioAct P) :
    Option (BioState P) :=
  if s.panic ≠ none then none else
  match a with
  | .bread p dev sector =>
    if s.pc p = .user then some (s.setPc p (.getting .user dev sector)) else none
  | .get p =>
    match s.pc p with
    | .getting k dev sector => some (s.get p k dev sector)
    | _ => none
  | .wake p =>
    match s.pc p with
    | .asleep k dev sector _ => some (s.setPc p (.getting k dev sector))
    | _ => none
  | .fill p =>
    match s.pc p with
    | .filling k _ _ b => some (s.fill p k b)
    | _ => none
  | .modify p b data =>
    if s.pc p = .user ∧ s.owner b = some p then some (s.modify b data) else none
  | .logCheck p b =>
    if s.pc p = .user ∧ s.owner b = some p then some (logCheck log s p b) else none
  | .logAppend p =>
    match s.pc p with
    | .logging b => some (s.logAppend p b)
    | _ => none
  | .bwrite p b =>
    if s.pc p = .user ∧ s.owner b = some p then some (s.bwrite b (s.originOf b)) else none
  | .brelse p b =>
    if s.pc p = .user ∧ s.owner b = some p ∧ s.unsaved b = false then some (s.brelse b)
    else none
  | .beginOp p =>
    if s.pc p = .user ∧ p ∉ s.ops ∧ s.committing = none ∧
        s.lh.length + (s.ops.length + 1) * MAXOPBLOCKS ≤ LOGSIZE then
      some { s with ops := p :: s.ops }
    else none
  | .endOp p => if s.pc p = .user ∧ p ∈ s.ops then some (s.endOp p) else none
  | .commit p =>
    match s.pc p with
    | .commit c => some (commitStep log s p c)
    | _ => none

end Xv6
