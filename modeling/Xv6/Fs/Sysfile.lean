import Xv6.Fs.Dir

/-! Open files and the file-system calls, as in `file.c`, `sysfile.c`, `exec.c` and `proc.c`,
after their arguments have been fetched. -/
namespace Xv6

def O_WRONLY : ℕ := 1

def O_RDWR : ℕ := 2

def O_CREATE : ℕ := 0x200

def modifyFile (f : FileId) (g : File → File) : FsM Unit :=
  Prog.modify fun s => { s with file := Function.update s.file f (g (s.file f)) }

def fileAt (f : FileId) : FsM File := do
  let s ← Prog.get
  return s.file f

def modifyProc (p : Fin NPROC) (g : Proc → Proc) : FsM Unit :=
  Prog.modify fun s => { s with proc := Function.update s.proc p ((s.proc p).map g) }

def Proc.setOfile (q : Proc) (fd : Fin NOFILE) (f : Option FileId) : Proc :=
  { q with ofile := Function.update q.ofile fd f }

def filealloc : FsM (Option FileId) := do
  let s ← Prog.get
  match (List.finRange NFILE).find? fun f => (s.file f).ref = 0 with
  | none => return none
  | some f => do
    modifyFile f fun x => { x with ref := 1 }
    return some f

def filedup (f : FileId) : FsM FileId := do
  let x ← fileAt f
  if x.ref < 1 then panic "filedup"
  else do
    modifyFile f fun x => { x with ref := x.ref + 1 }
    return f

def fileclose (f : FileId) : FsM Unit := do
  let x ← fileAt f
  if x.ref < 1 then panic "fileclose"
  else if x.ref - 1 > 0 then modifyFile f fun x => { x with ref := x.ref - 1 }
  else do
    modifyFile f fun x => { x with ref := 0, type := .none }
    if x.type = .inode then do
      beginOp
      iput x.ip
      endOp
    else pure ()

/-- Read from file `f`: the result and the bytes delivered. -/
def fileread (devsw : Devsw) (f : FileId) (n : ℕ) : FsM (ℤ × List UInt8) := do
  let x ← fileAt f
  if x.readable = false then return (-1, [])
  else match x.type with
  | .pipe => return devsw.piperead n
  | .inode => do
    ilock x.ip
    let (r, bytes) ← readi devsw x.ip x.off n
    if r > 0 then modifyFile f fun x => { x with off := (x.off + r.toNat) % 2 ^ 32 } else pure ()
    iunlock x.ip
    return (r, bytes)
  | .none => panic "fileread"

/-- The most that `filewrite` writes in one transaction. -/
def filewriteMax : ℕ := (LOGSIZE - 1 - 1 - 2) / 2 * 512

/-- The loop of `filewrite`: whether all of `src` has been written. -/
def filewriteFrom (devsw : Devsw) (f : FileId) : ℕ → List UInt8 → FsM Bool
  | 0, src => return src.isEmpty
  | fuel + 1, src =>
    if src.length > 0 then do
      let n1 := min src.length filewriteMax
      beginOp
      let x ← fileAt f
      ilock x.ip
      let r ← writei devsw x.ip (src.take n1) x.off
      if r > 0 then modifyFile f fun x => { x with off := (x.off + r.toNat) % 2 ^ 32 } else pure ()
      iunlock x.ip
      endOp
      if r < 0 then return false
      else if r ≠ n1 then panic "short filewrite"
      else filewriteFrom devsw f fuel (src.drop n1)
    else return true

def filewrite (devsw : Devsw) (f : FileId) (src : List UInt8) : FsM ℤ := do
  let x ← fileAt f
  if x.writable = false then return -1
  else match x.type with
  | .pipe => return devsw.pipewrite src
  | .inode => do
    let all ← filewriteFrom devsw f src.length src
    return if all then src.length else -1
  | .none => panic "filewrite"

def argfd (p : Fin NPROC) (fd : Fin NOFILE) : FsM (Option FileId) := do
  let q ← myproc p
  return q.ofile fd

def fdalloc (p : Fin NPROC) (f : FileId) : FsM (Option (Fin NOFILE)) := do
  let q ← myproc p
  match (List.finRange NOFILE).find? fun fd => q.ofile fd = none with
  | none => return none
  | some fd => do
    modifyProc p fun q => q.setOfile fd (some f)
    return some fd

def sysDup (p : Fin NPROC) (fd : Fin NOFILE) : FsM ℤ := do
  match ← argfd p fd with
  | none => return -1
  | some f =>
    match ← fdalloc p f with
    | none => return -1
    | some fd' => do
      let _ ← filedup f
      return fd'.val

def sysRead (devsw : Devsw) (p : Fin NPROC) (fd : Fin NOFILE) (n : ℕ) : FsM ℤ := do
  match ← argfd p fd with
  | none => return -1
  | some f => do
    let (r, _) ← fileread devsw f n
    return r

def sysWrite (devsw : Devsw) (p : Fin NPROC) (fd : Fin NOFILE) (src : List UInt8) : FsM ℤ := do
  match ← argfd p fd with
  | none => return -1
  | some f => filewrite devsw f src

def sysClose (p : Fin NPROC) (fd : Fin NOFILE) : FsM ℤ := do
  match ← argfd p fd with
  | none => return -1
  | some f => do
    modifyProc p fun q => q.setOfile fd none
    fileclose f
    return 0

/-- `pipealloc`; `room` says whether `kalloc` has a page for the pipe. -/
def pipealloc (room : Bool) : FsM (Option (FileId × FileId)) := do
  match ← filealloc with
  | none => return none
  | some f0 =>
    match ← filealloc with
    | none => do
      fileclose f0
      return none
    | some f1 =>
      if room then do
        modifyFile f0 fun x => { x with type := .pipe, readable := true, writable := false }
        modifyFile f1 fun x => { x with type := .pipe, readable := false, writable := true }
        return some (f0, f1)
      else do
        fileclose f0
        fileclose f1
        return none

def sysPipe (p : Fin NPROC) (room : Bool) : FsM ℤ := do
  match ← pipealloc room with
  | none => return -1
  | some (rf, wf) =>
    match ← fdalloc p rf with
    | none => do
      fileclose rf
      fileclose wf
      return -1
    | some fd0 =>
      match ← fdalloc p wf with
      | none => do
        modifyProc p fun q => q.setOfile fd0 none
        fileclose rf
        fileclose wf
        return -1
      | some _ => return 0

/-- The exit of `sys_link` that takes the link back. -/
def sysLinkBad (ip : InodeId) : FsM ℤ := do
  ilock ip
  setDin ip fun d => { d with nlink := (d.nlink + (2 ^ 16 - 1)) % 2 ^ 16 }
  iupdate ip
  iunlockput ip
  endOp
  return -1

def sysLink (devsw : Devsw) (p : Fin NPROC) (old new : List UInt8) : FsM ℤ := do
  beginOp
  match ← namei devsw p old with
  | none => do
    endOp
    return -1
  | some ip => do
    ilock ip
    let i ← inodeAt ip
    if i.din.type = T_DIR then do
      iunlockput ip
      endOp
      return -1
    else do
      setDin ip fun d => { d with nlink := (d.nlink + 1) % 2 ^ 16 }
      iupdate ip
      iunlock ip
      match ← nameiparent devsw p new with
      | none => sysLinkBad ip
      | some (dp, name) => do
        ilock dp
        let d ← inodeAt dp
        let i ← inodeAt ip
        let bad ← if d.dev ≠ i.dev then pure true
          else do
            let r ← dirlink devsw dp name i.inum
            pure (decide (r < 0))
        iunlockput dp
        if bad then sysLinkBad ip
        else do
          iput ip
          endOp
          return 0

def isdiremptyFrom (devsw : Devsw) (dp : InodeId) : ℕ → ℕ → FsM Bool
  | 0, _ => return true
  | fuel + 1, off => do
    let i ← inodeAt dp
    if off < i.din.size then do
      let (r, de) ← readi devsw dp off DIRENT
      if r ≠ DIRENT then panic "isdirempty: readi"
      else if deInum de ≠ 0 then return false
      else isdiremptyFrom devsw dp fuel (off + DIRENT)
    else return true

def isdirempty (devsw : Devsw) (dp : InodeId) : FsM Bool := do
  let i ← inodeAt dp
  isdiremptyFrom devsw dp (i.din.size / DIRENT + 1) (2 * DIRENT)

/-- The exit of `sys_unlink` with the directory still locked. -/
def sysUnlinkBad (dp : InodeId) : FsM ℤ := do
  iunlockput dp
  endOp
  return -1

def sysUnlink (devsw : Devsw) (p : Fin NPROC) (path : List UInt8) : FsM ℤ := do
  beginOp
  match ← nameiparent devsw p path with
  | none => do
    endOp
    return -1
  | some (dp, name) => do
    ilock dp
    if namecmp name [46] = 0 ∨ namecmp name [46, 46] = 0 then sysUnlinkBad dp
    else match ← dirlookup devsw dp name with
    | none => sysUnlinkBad dp
    | some (ip, off) => do
      ilock ip
      let i ← inodeAt ip
      if i.din.nlink = 0 ∨ 2 ^ 15 ≤ i.din.nlink then panic "unlink: nlink < 1"
      else do
        let empty ← if i.din.type = T_DIR then isdirempty devsw ip else pure true
        if empty = false then do
          iunlockput ip
          sysUnlinkBad dp
        else do
          let r ← writei devsw dp (List.replicate DIRENT 0) off
          if r ≠ DIRENT then panic "unlink: writei"
          else do
            if i.din.type = T_DIR then do
              setDin dp fun d => { d with nlink := (d.nlink + (2 ^ 16 - 1)) % 2 ^ 16 }
              iupdate dp
            else pure ()
            iunlockput dp
            setDin ip fun d => { d with nlink := (d.nlink + (2 ^ 16 - 1)) % 2 ^ 16 }
            iupdate ip
            iunlockput ip
            endOp
            return 0

/-- Create the inode of the path and enter it into its directory; it is returned locked. -/
def create (devsw : Devsw) (p : Fin NPROC) (path : List UInt8) (type major minor : ℕ) :
    FsM (Option InodeId) := do
  match ← nameiparent devsw p path with
  | none => return none
  | some (dp, name) => do
    ilock dp
    match ← dirlookup devsw dp name with
    | some (ip, _) => do
      iunlockput dp
      ilock ip
      let i ← inodeAt ip
      if type = T_FILE ∧ i.din.type = T_FILE then return some ip
      else do
        iunlockput ip
        return none
    | none => do
      let d ← inodeAt dp
      let ip ← ialloc d.dev type
      ilock ip
      setDin ip fun x => { x with major := major, minor := minor, nlink := 1 }
      iupdate ip
      if type = T_DIR then do
        setDin dp fun x => { x with nlink := (x.nlink + 1) % 2 ^ 16 }
        iupdate dp
        let i ← inodeAt ip
        let d ← inodeAt dp
        let r ← dirlink devsw ip [46] i.inum
        if r < 0 then panic "create dots"
        else do
          let r ← dirlink devsw ip [46, 46] d.inum
          if r < 0 then panic "create dots" else pure ()
      else pure ()
      let i ← inodeAt ip
      let r ← dirlink devsw dp name i.inum
      if r < 0 then panic "create: dirlink"
      else do
        iunlockput dp
        return some ip

/-- The second half of `sys_open`, with `ip` locked. -/
def openFile (p : Fin NPROC) (ip : InodeId) (omode : ℕ) : FsM ℤ := do
  match ← filealloc with
  | none => do
    iunlockput ip
    endOp
    return -1
  | some f =>
    match ← fdalloc p f with
    | none => do
      fileclose f
      iunlockput ip
      endOp
      return -1
    | some fd => do
      iunlock ip
      endOp
      modifyFile f fun x => { x with
        type := .inode
        ip := ip
        off := 0
        readable := omode &&& O_WRONLY = 0
        writable := omode &&& O_WRONLY ≠ 0 ∨ omode &&& O_RDWR ≠ 0 }
      return fd.val

def sysOpen (devsw : Devsw) (p : Fin NPROC) (path : List UInt8) (omode : ℕ) : FsM ℤ := do
  beginOp
  if omode &&& O_CREATE ≠ 0 then
    match ← create devsw p path T_FILE 0 0 with
    | none => do
      endOp
      return -1
    | some ip => openFile p ip omode
  else
    match ← namei devsw p path with
    | none => do
      endOp
      return -1
    | some ip => do
      ilock ip
      let i ← inodeAt ip
      if i.din.type = T_DIR ∧ omode ≠ 0 then do
        iunlockput ip
        endOp
        return -1
      else openFile p ip omode

/-- `sys_mkdir` and `sys_mknod`: create, and drop the inode again. -/
def makeNode (devsw : Devsw) (p : Fin NPROC) (path : List UInt8) (type major minor : ℕ) :
    FsM ℤ := do
  beginOp
  match ← create devsw p path type major minor with
  | none => do
    endOp
    return -1
  | some ip => do
    iunlockput ip
    endOp
    return 0

def sysMkdir (devsw : Devsw) (p : Fin NPROC) (path : List UInt8) : FsM ℤ :=
  makeNode devsw p path T_DIR 0 0

def sysMknod (devsw : Devsw) (p : Fin NPROC) (path : List UInt8) (major minor : ℕ) : FsM ℤ :=
  makeNode devsw p path T_DEV (major % 2 ^ 16) (minor % 2 ^ 16)

def sysChdir (devsw : Devsw) (p : Fin NPROC) (path : List UInt8) : FsM ℤ := do
  beginOp
  match ← namei devsw p path with
  | none => do
    endOp
    return -1
  | some ip => do
    ilock ip
    let i ← inodeAt ip
    if i.din.type ≠ T_DIR then do
      iunlockput ip
      endOp
      return -1
    else do
      iunlock ip
      let q ← myproc p
      iput q.cwd
      endOp
      modifyProc p fun q => { q with cwd := ip }
      return 0

/-- The file-system part of `exec`; `reads` are the reads it makes of the program file. -/
def sysExec (devsw : Devsw) (p : Fin NPROC) (path : List UInt8) (reads : List (ℕ × ℕ)) :
    FsM Unit := do
  beginOp
  match ← namei devsw p path with
  | none => endOp
  | some ip => do
    ilock ip
    reads.forM fun r => do
      let _ ← readi devsw ip r.1 r.2
      pure ()
    iunlockput ip
    endOp

def sysFork (p c : Fin NPROC) : FsM ℤ := do
  let q ← myproc p
  (List.finRange NOFILE).forM fun fd =>
    match q.ofile fd with
    | none => pure ()
    | some f => do
      let _ ← filedup f
      pure ()
  let cwd ← idup q.cwd
  Prog.modify fun s => { s with proc := Function.update s.proc c (some { q with cwd := cwd }) }
  return c.val

def sysExit (p : Fin NPROC) : FsM Unit := do
  (List.finRange NOFILE).forM fun fd => do
    let q ← myproc p
    match q.ofile fd with
    | none => pure ()
    | some f => do
      fileclose f
      modifyProc p fun q => q.setOfile fd none
  beginOp
  let q ← myproc p
  iput q.cwd
  endOp
  Prog.modify fun s => { s with proc := Function.update s.proc p none }

end Xv6
