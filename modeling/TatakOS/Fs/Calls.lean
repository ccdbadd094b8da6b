import TatakOS.Fs.Names

/-!
# System calls on files

`file.c`, `sysfile.c`, and the parts of `fork`, `exit` and `exec` that work on files. A call is one
step from beginning to end. What it returns for `-1` is `none`. Other parts of the kernel decide
which page `kalloc` gives, which process slot is free, what pipes and devices transfer, and whether
there is memory for an image: a call has these as arguments.
-/

namespace TatakOS.Fs

open ProcTable (Slot)
open Function

def NDEV : ℕ := 10
def MAXPATH : ℕ := 128

def O_RDONLY : ℕ := 0x000
def O_WRONLY : ℕ := 0x001
def O_RDWR : ℕ := 0x002
def O_CREATE : ℕ := 0x200
def O_TRUNC : ℕ := 0x400

/-- Is one of the bits of the flag set? -/
def has (omode flag : ℕ) : Bool := omode &&& flag ≠ 0

/-! ## Open files -/

def setFile (f : FileId) (x : File) : Kern Unit :=
  modify fun s => { s with ftable := update s.ftable f x }

def setProc (p : Slot) (x : Option Proc) : Kern Unit :=
  modify fun s => { s with procs := update s.procs p x }

def setPipe (pi : ℕ) (x : Option PipeEnds) : Kern Unit :=
  modify fun s => { s with pipes := update s.pipes pi x }

def filealloc : Kern (Option FileId) := do
  let s ← get
  match (List.finRange NFILE).find? fun f => (s.ftable f).ref = 0 with
  | none => return none
  | some f =>
    setFile f { s.ftable f with ref := 1 }
    return some f

def filedup (f : FileId) : Kern Unit := do
  let x := (← get).ftable f
  if x.ref < 1 then panic .filedup else setFile f { x with ref := x.ref + 1 }

def pipeclose (pi : ℕ) (writable : Bool) : Kern Unit := do
  match (← get).pipes pi with
  | none => panic .freedPipe
  | some x =>
    let y := if writable then { x with writeopen := false } else { x with readopen := false }
    if y.readopen = false ∧ y.writeopen = false then setPipe pi none else setPipe pi (some y)

/-- `fileclose` of the last reference. -/
def closeLast (ff : File) : Kern Unit :=
  match ff.type with
  | .FD_NONE => return
  | .FD_PIPE => pipeclose ff.pipe ff.writable
  | .FD_INODE | .FD_DEVICE => do
    beginOp
    iput ff.ip
    endOp

def fileclose (f : FileId) : Kern Unit := do
  let x := (← get).ftable f
  if x.ref < 1 then panic .fileclose
  else if 0 < x.ref - 1 then setFile f { x with ref := x.ref - 1 }
  else
    setFile f { x with ref := 0, type := .FD_NONE }
    closeLast x

/-- `kalloc`, which gives `page`. -/
def kalloc (page : Option ℕ) : Kern (Option ℕ) := do
  match page with
  | none => return none
  | some pi => if ((← get).pipes pi).isSome then panic .impossible else return some pi

/-- `bad` in `pipealloc`, with the files it has. -/
def closeAll : List FileId → Kern Unit
  | [] => return
  | f :: fs => do
    fileclose f
    closeAll fs

def pipealloc (page : Option ℕ) : Kern (Option (FileId × FileId)) := do
  match ← filealloc with
  | none => return none
  | some f0 =>
    match ← filealloc with
    | none =>
      closeAll [f0]
      return none
    | some f1 =>
      match ← kalloc page with
      | none =>
        closeAll [f0, f1]
        return none
      | some pi =>
        setPipe pi (some ⟨true, true⟩)
        let x := (← get).ftable f0
        setFile f0 { x with type := .FD_PIPE, readable := true, writable := false, pipe := pi }
        let x := (← get).ftable f1
        setFile f1 { x with type := .FD_PIPE, readable := false, writable := true, pipe := pi }
        return some (f0, f1)

/-! ## Descriptors -/

def argfd (p : Slot) (fd : ℤ) : Kern (Option (Fd × FileId)) := do
  let x ← getProc p
  if h : 0 ≤ fd ∧ fd < NOFILE then
    let fd : Fd := ⟨fd.toNat, by omega⟩
    return (x.ofile fd).map fun f => (fd, f)
  else return none

def setOfile (p : Slot) (fd : Fd) (f : Option FileId) : Kern Unit := do
  let x ← getProc p
  setProc p (some { x with ofile := update x.ofile fd f })

def fdalloc (p : Slot) (f : FileId) : Kern (Option Fd) := do
  let x ← getProc p
  match (List.finRange NOFILE).find? fun fd => x.ofile fd = none with
  | none => return none
  | some fd =>
    setOfile p fd (some f)
    return some fd

def sysDup (p : Slot) (fd : ℤ) : Kern (Option Fd) := do
  match ← argfd p fd with
  | none => return none
  | some (_, f) =>
    match ← fdalloc p f with
    | none => return none
    | some fd =>
      filedup f
      return some fd

def sysClose (p : Slot) (fd : ℤ) : Kern Bool := do
  match ← argfd p fd with
  | none => return false
  | some (fd, f) =>
    setOfile p fd none
    fileclose f
    return true

/-- The end of a failing `sys_pipe`. -/
def undoPipe (p : Slot) (fds : List Fd) (rf wf : FileId) : Kern Bool := do
  match fds with
  | [] =>
    closeAll [rf, wf]
    return false
  | [fd0] =>
    setOfile p fd0 none
    closeAll [rf, wf]
    return false
  | fd0 :: fd1 :: _ =>
    setOfile p fd0 none
    setOfile p fd1 none
    closeAll [rf, wf]
    return false

def sysPipe (p : Slot) (um : UserMem) (fdarray : ℕ) (page : Option ℕ) : Kern Bool := do
  match ← pipealloc page with
  | none => return false
  | some (rf, wf) =>
    match ← fdalloc p rf with
    | none => undoPipe p [] rf wf
    | some fd0 =>
      match ← fdalloc p wf with
      | none => undoPipe p [fd0] rf wf
      | some fd1 =>
        if (copyin um fdarray 4).2 ∧ (copyin um (fdarray + 4) 4).2 then return true
        else undoPipe p [fd0, fd1] rf wf

/-! ## Links -/

def nlinkInc (ip : Ip) : Kern Unit := setDin ip fun d => { d with nlink := (d.nlink + 1) % 2 ^ 16 }

def nlinkDec (ip : Ip) : Kern Unit :=
  setDin ip fun d => { d with nlink := (d.nlink + 2 ^ 16 - 1) % 2 ^ 16 }

/-- `goto bad` in `sys_link`. -/
def undoLink (ip : Ip) : Kern Bool := do
  ilock ip
  nlinkDec ip
  iupdate ip
  iunlockput ip
  endOp
  return false

def sysLink (p : Slot) (um : UserMem) (old new : ℕ) : Kern Bool := do
  match copyinstr um MAXPATH old, copyinstr um MAXPATH new with
  | some old, some new =>
    beginOp
    match ← namei p old with
    | none =>
      endOp
      return false
    | some ip =>
      ilock ip
      if ((← get).itable ip).din.type = T_DIR then
        iunlockput ip
        endOp
        return false
      else
        nlinkInc ip
        iupdate ip
        iunlock ip
        match ← nameiparent p new with
        | none => undoLink ip
        | some (dp, name) =>
          ilock dp
          if ← dirlink dp name ((← get).itable ip).inum then
            iunlockput dp
            iput ip
            endOp
            return true
          else
            iunlockput dp
            undoLink ip
  | _, _ => return false

/-- `goto bad` in `sys_unlink`. -/
def undoUnlink (dp : Ip) : Kern Bool := do
  iunlockput dp
  endOp
  return false

/-- `dp->nlink--` for the `".."` of a directory. -/
def dropParent (dp ip : Ip) : Kern Unit := do
  if ((← get).itable ip).din.type = T_DIR then
    nlinkDec dp
    iupdate dp
  else return

/-- Is `ip` a directory with entries other than its own two? -/
def isdirfull (ip : Ip) : Kern Bool := do
  if ((← get).itable ip).din.type = T_DIR then return !(← isdirempty ip) else return false

/-- `ip->nlink < 1`, for a `short`. -/
def nlinkBelowOne (d : Dinode) : Bool := d.nlink = 0 ∨ 2 ^ 15 ≤ d.nlink

def sysUnlink (p : Slot) (um : UserMem) (path : ℕ) : Kern Bool := do
  match copyinstr um MAXPATH path with
  | none => return false
  | some path =>
    beginOp
    match ← nameiparent p path with
    | none =>
      endOp
      return false
    | some (dp, name) =>
      ilock dp
      if namecmp name [dot] ∨ namecmp name [dot, dot] then undoUnlink dp
      else
        match ← dirlookup dp name with
        | none => undoUnlink dp
        | some (ip, off) =>
          ilock ip
          if nlinkBelowOne ((← get).itable ip).din then panic .unlinkNlink
          else if ← isdirfull ip then
            iunlockput ip
            undoUnlink dp
          else
            writeEntry dp off (List.replicate 16 0) .unlinkWritei
            dropParent dp ip
            iunlockput dp
            nlinkDec ip
            iupdate ip
            iunlockput ip
            endOp
            return true

/-! ## Creating files -/

/-- The entries `"."` and `".."`. -/
def createDots (dp ip : Ip) : Kern Unit := do
  nlinkInc dp
  iupdate dp
  let s ← get
  if ← dirlink ip [dot] (s.itable ip).inum then
    if ← dirlink ip [dot, dot] (s.itable dp).inum then return else panic .createDots
  else panic .createDots

/-- The end of `create`, for a new inode. -/
def createEntry (dp ip : Ip) (name : List UInt8) : Kern (Option Ip) := do
  if ← dirlink dp name ((← get).itable ip).inum then
    iunlockput dp
    return some ip
  else panic .createDirlink

def create (p : Slot) (path : List UInt8) (type major minor : ℕ) : Kern (Option Ip) := do
  match ← nameiparent p path with
  | none => return none
  | some (dp, name) =>
    ilock dp
    match ← dirlookup dp name with
    | some (ip, _) =>
      iunlockput dp
      ilock ip
      let x := (← get).itable ip
      if type = T_FILE ∧ (x.din.type = T_FILE ∨ x.din.type = T_DEVICE) then return some ip
      else
        iunlockput ip
        return none
    | none =>
      let ip ← ialloc type
      ilock ip
      setDin ip fun d => { d with major := major % 2 ^ 16, minor := minor % 2 ^ 16, nlink := 1 }
      iupdate ip
      if type = T_DIR then
        createDots dp ip
        createEntry dp ip name
      else createEntry dp ip name

/-- The inode to open, locked. -/
def openInode (p : Slot) (path : List UInt8) (omode : ℕ) : Kern (Option Ip) :=
  if has omode O_CREATE then create p path T_FILE 0 0
  else do
    match ← namei p path with
    | none => return none
    | some ip =>
      ilock ip
      if ((← get).itable ip).din.type = T_DIR ∧ omode ≠ O_RDONLY then
        iunlockput ip
        return none
      else return some ip

/-- `filealloc` and `fdalloc` for `sys_open`. -/
def openFile (p : Slot) : Kern (Option (FileId × Fd)) := do
  match ← filealloc with
  | none => return none
  | some f =>
    match ← fdalloc p f with
    | none =>
      fileclose f
      return none
    | some fd => return some (f, fd)

/-- A failing `sys_open` that has an inode. -/
def undoOpen (ip : Ip) : Kern (Option Fd) := do
  iunlockput ip
  endOp
  return none

/-- The fields of the new file. -/
def openedFile (x : File) (ip : Ip) (d : Dinode) (omode : ℕ) : File :=
  let x := if d.type = T_DEVICE then { x with type := .FD_DEVICE, major := d.major }
    else { x with type := .FD_INODE, off := 0 }
  { x with
    ip := ip
    readable := !has omode O_WRONLY
    writable := has omode O_WRONLY || has omode O_RDWR }

def truncOpened (ip : Ip) (omode : ℕ) : Kern Unit := do
  if has omode O_TRUNC ∧ ((← get).itable ip).din.type = T_FILE then itrunc ip else return

def sysOpen (p : Slot) (um : UserMem) (path omode : ℕ) : Kern (Option Fd) := do
  match copyinstr um MAXPATH path with
  | none => return none
  | some path =>
    beginOp
    match ← openInode p path omode with
    | none =>
      endOp
      return none
    | some ip =>
      let x := (← get).itable ip
      if x.din.type = T_DEVICE ∧ NDEV ≤ x.din.major then undoOpen ip
      else
        match ← openFile p with
        | none => undoOpen ip
        | some (f, fd) =>
          let s ← get
          setFile f (openedFile (s.ftable f) ip (s.itable ip).din omode)
          truncOpened ip omode
          iunlock ip
          endOp
          return some fd

/-- `sys_mkdir` and `sys_mknod`, which differ in what they create. -/
def sysCreate (p : Slot) (um : UserMem) (path type major minor : ℕ) : Kern Bool := do
  beginOp
  match copyinstr um MAXPATH path with
  | none =>
    endOp
    return false
  | some path =>
    match ← create p path type major minor with
    | none =>
      endOp
      return false
    | some ip =>
      iunlockput ip
      endOp
      return true

def sysMkdir (p : Slot) (um : UserMem) (path : ℕ) : Kern Bool := sysCreate p um path T_DIR 0 0

def sysMknod (p : Slot) (um : UserMem) (path major minor : ℕ) : Kern Bool :=
  sysCreate p um path T_DEVICE major minor

def sysChdir (p : Slot) (um : UserMem) (path : ℕ) : Kern Bool := do
  beginOp
  match copyinstr um MAXPATH path with
  | none =>
    endOp
    return false
  | some path =>
    match ← namei p path with
    | none =>
      endOp
      return false
    | some ip =>
      ilock ip
      if ((← get).itable ip).din.type ≠ T_DIR then
        iunlockput ip
        endOp
        return false
      else
        iunlock ip
        let x ← getProc p
        iput x.cwd
        endOp
        let x ← getProc p
        setProc p (some { x with cwd := ip })
        return true

/-! ## Reading and writing -/

/-- `sys_read` of `n` bytes; `other` is what a pipe or a device returns. -/
def sysRead (p : Slot) (um : UserMem) (fd : ℤ) (addr : ℕ) (n : ℤ) (other : Option ℕ) :
    Kern (Option ℕ) := do
  match ← argfd p fd with
  | none => return none
  | some (_, f) =>
    let x := (← get).ftable f
    if x.readable = false then return none
    else
      match x.type with
      | .FD_NONE => panic .fileread
      | .FD_PIPE | .FD_DEVICE => return other
      | .FD_INODE =>
        ilock x.ip
        let r ← readi x.ip (.user um addr) x.off (n % 2 ^ 32).toNat
        let r := r.map List.length
        setFile f { x with off := (x.off + r.getD 0) % 2 ^ 32 }
        iunlock x.ip
        return r

/-- `max` in `filewrite`. -/
def writeMax : ℕ := (Logging.MAXOPBLOCKS - 1 - 1 - 2) / 2 * BSIZE

/-- The loop of `filewrite`, where `i` bytes have been written: whether it gets to the end. Each
round but the last writes something, so `n` rounds are enough. -/
def filewriteLoop (f : FileId) (um : UserMem) (addr n : ℕ) : ℕ → ℕ → Kern Bool
  | 0, i => return i = n
  | k + 1, i =>
    if i < n then do
      let n1 := min (n - i) writeMax
      beginOp
      let x := (← get).ftable f
      ilock x.ip
      let r ← writei x.ip (.user um (addr + i)) x.off n1
      setFile f { x with off := (x.off + r.getD 0) % 2 ^ 32 }
      iunlock x.ip
      endOp
      if r = some n1 then filewriteLoop f um addr n k (i + n1) else return false
    else return true

def sysWrite (p : Slot) (um : UserMem) (fd : ℤ) (addr : ℕ) (n : ℤ) (other : Option ℕ) :
    Kern (Option ℕ) := do
  match ← argfd p fd with
  | none => return none
  | some (_, f) =>
    let x := (← get).ftable f
    if x.writable = false then return none
    else
      match x.type with
      | .FD_NONE => panic .filewrite
      | .FD_PIPE | .FD_DEVICE => return other
      | .FD_INODE =>
        if n < 0 then return none
        else if ← filewriteLoop f um addr n.toNat n.toNat 0 then return some n.toNat
        else return none

/-! ## Processes -/

def initproc : Slot := ⟨0, ProcTable.NPROC_pos⟩

/-- The loop of `fork` over the files. -/
def dupFiles (x : Proc) : List Fd → Kern Unit
  | [] => return
  | fd :: fds => do
    match x.ofile fd with
    | none => dupFiles x fds
    | some f =>
      filedup f
      dupFiles x fds

/-- `fork`, into the slot that `allocproc` gives; `none` if there is none, or no memory. -/
def sysFork (p : Slot) (np : Option Slot) : Kern Bool := do
  match np with
  | none => return false
  | some np =>
    if ((← get).procs np).isSome then panic .impossible
    else
      let x ← getProc p
      dupFiles x (List.finRange NOFILE)
      let cwd ← idup x.cwd
      setProc np (some { ofile := x.ofile, cwd := cwd })
      return true

/-- The loop of `exit` over the files. -/
def closeFiles (p : Slot) : List Fd → Kern Unit
  | [] => return
  | fd :: fds => do
    let x ← getProc p
    match x.ofile fd with
    | none => closeFiles p fds
    | some f =>
      fileclose f
      setOfile p fd none
      closeFiles p fds

def sysExit (p : Slot) : Kern Unit :=
  if p = initproc then panic .initExiting
  else do
    closeFiles p (List.finRange NOFILE)
    beginOp
    let x ← getProc p
    iput x.cwd
    endOp
    setProc p none

/-- What the memory side of `exec` does. -/
structure Luck where
  /-- Fetching the arguments. -/
  args : Bool
  pagetable : Bool
  /-- `uvmalloc` for the program header with this number. -/
  uvmalloc : ℕ → Bool
  /-- Everything after the file is closed. -/
  stack : Bool

/-- The field of `w` bytes at offset `o`. -/
def field (l : List UInt8) (o w : ℕ) : ℕ := Bytes.get (fun i => l.getD i 0) o w

/-- `readi` of exactly `n` bytes. -/
def readExact (ip : Ip) (off n : ℕ) : Kern (Option (List UInt8)) := do
  let r ← readi ip (.kernel []) off n
  return r.filter (·.length = n)

/-- `loadseg`, from byte `i` of the segment on. -/
def loadseg (ip : Ip) (offset sz : ℕ) : ℕ → ℕ → Kern Bool
  | 0, _ => return true
  | k + 1, i =>
    if i < sz then do
      match ← readExact ip ((offset + i) % 2 ^ 32) (min (sz - i) PGSIZE) with
      | none => return false
      | some _ => loadseg ip offset sz k (i + PGSIZE)
    else return true

/-- The loop of `exec` over `k` program headers from number `i` on. -/
def loadSegments (ip : Ip) (luck : Luck) (phoff : ℕ) : ℕ → ℕ → Kern Bool
  | 0, _ => return true
  | k + 1, i => do
    match ← readExact ip ((phoff + 56 * i) % 2 ^ 32) 56 with
    | none => return false
    | some ph =>
      if field ph 0 4 ≠ 1 then loadSegments ip luck phoff k (i + 1)
      else if field ph 40 8 < field ph 32 8 then return false
      else if 2 ^ 64 ≤ field ph 16 8 + field ph 40 8 then return false
      else if luck.uvmalloc i = false then return false
      else if field ph 16 8 % PGSIZE ≠ 0 then return false
      else
        let sz := field ph 32 8 % 2 ^ 32
        if ← loadseg ip (field ph 8 8) sz (sz / PGSIZE + 1) 0 then
          loadSegments ip luck phoff k (i + 1)
        else return false

def ELF_MAGIC : ℕ := 0x464C457F

def loadImage (ip : Ip) (luck : Luck) : Kern Bool := do
  match ← readExact ip 0 64 with
  | none => return false
  | some elf =>
    if field elf 0 4 ≠ ELF_MAGIC then return false
    else if luck.pagetable = false then return false
    else loadSegments ip luck (field elf 32 8) (field elf 56 2) 0

def sysExec (p : Slot) (um : UserMem) (path : ℕ) (luck : Luck) : Kern Bool := do
  match copyinstr um MAXPATH path with
  | none => return false
  | some path =>
    if luck.args = false then return false
    else
      beginOp
      match ← namei p path with
      | none =>
        endOp
        return false
      | some ip =>
        ilock ip
        let ok ← loadImage ip luck
        iunlockput ip
        endOp
        return ok && luck.stack

/-! ## Runs -/

inductive Call
  | openFile (um : UserMem) (path omode : ℕ)
  | close (fd : ℤ)
  | dup (fd : ℤ)
  | pipe (um : UserMem) (fdarray : ℕ) (page : Option ℕ)
  | link (um : UserMem) (old new : ℕ)
  | unlink (um : UserMem) (path : ℕ)
  | mkdir (um : UserMem) (path : ℕ)
  | mknod (um : UserMem) (path major minor : ℕ)
  | chdir (um : UserMem) (path : ℕ)
  | read (um : UserMem) (fd : ℤ) (addr : ℕ) (n : ℤ) (other : Option ℕ)
  | write (um : UserMem) (fd : ℤ) (addr : ℕ) (n : ℤ) (other : Option ℕ)
  | fork (np : Option Slot)
  | exit
  | exec (um : UserMem) (path : ℕ) (luck : Luck)

/-- The call, and whether it returns something else than `-1`. -/
def call (p : Slot) : Call → Kern Bool
  | .openFile um path omode => return (← sysOpen p um path omode).isSome
  | .close fd => sysClose p fd
  | .dup fd => return (← sysDup p fd).isSome
  | .pipe um fdarray page => sysPipe p um fdarray page
  | .link um old new => sysLink p um old new
  | .unlink um path => sysUnlink p um path
  | .mkdir um path => sysMkdir p um path
  | .mknod um path major minor => sysMknod p um path major minor
  | .chdir um path => sysChdir p um path
  | .read um fd addr n other => return (← sysRead p um fd addr n other).isSome
  | .write um fd addr n other => return (← sysWrite p um fd addr n other).isSome
  | .fork np => sysFork p np
  | .exit => do
    sysExit p
    return true
  | .exec um path luck => sysExec p um path luck

/-- Calls of any processes, one after the other. -/
def calls : List (Slot × Call) → Kern Unit
  | [] => return
  | (p, c) :: cs => do
    let _ ← call p c
    calls cs

/-- The kernel after `userinit`, with the disk. -/
def powerOn (disk : ℕ → Block) : State where
  sb := Superblock.get fun _ => 0
  blk := disk
  disk := disk
  log := { size := 0 }
  itable ip := if ip.val = 0 then { inum := ROOTINO, ref := 1 } else {}
  procs p := if p = initproc then some { cwd := ⟨0, NINODE_pos⟩ } else none

end TatakOS.Fs
