import TatakOS.Base.Spec
import TatakOS.Fs.Files
import TatakOS.Proc.System

/-!
# Blocks and inodes in the kernel

`fs.c` and what it uses of `log.c`, for one process that runs without interference. `State.blk` is
what `bread` gives: the cache behaves like an array of blocks. `log_write`, `begin_op` and `end_op`
are those of `Logging`. A pointer to an inode is its place in `itable`; there is one device.
-/

namespace TatakOS.Fs

open ProcTable (Slot)
open Function

def NINODE : ℕ := 50
def NFILE : ℕ := 100
def NOFILE : ℕ := 16

theorem NINODE_pos : 0 < NINODE := by decide

abbrev Ip := Fin NINODE
abbrev FileId := Fin NFILE
abbrev Fd := Fin NOFILE

/-- `struct inode`. -/
structure Inode where
  inum : ℕ := 0
  ref : ℤ := 0
  /-- The process holds `ip->lock`. -/
  locked : Bool := false
  valid : Bool := false
  /-- The copy of the disk inode. -/
  din : Dinode := {}

inductive FileType
  | FD_NONE | FD_PIPE | FD_INODE | FD_DEVICE
  deriving DecidableEq, Repr

/-- `struct file`. -/
structure File where
  type : FileType := .FD_NONE
  ref : ℤ := 0
  readable : Bool := false
  writable : Bool := false
  /-- The page of the pipe. -/
  pipe : ℕ := 0
  ip : Ip := ⟨0, NINODE_pos⟩
  off : ℕ := 0
  major : ℕ := 0

structure Proc where
  ofile : Fd → Option FileId := fun _ => none
  cwd : Ip

/-- The part of `struct pipe` that opening and closing use. -/
structure PipeEnds where
  readopen : Bool
  writeopen : Bool
  deriving DecidableEq, Repr

structure State where
  sb : Superblock
  blk : ℕ → Block
  disk : ℕ → Block
  log : Logging.Log
  itable : Ip → Inode := fun _ => {}
  ftable : FileId → File := fun _ => {}
  /-- The processes with open files and a current directory: not those that have exited. -/
  procs : Slot → Option Proc := fun _ => none
  /-- The pages in use as pipes. -/
  pipes : ℕ → Option PipeEnds := fun _ => none
  /-- What the disk held after each write to it, newest first. -/
  trace : List (ℕ → Block) := []

inductive Panic
  | log (e : Logging.Panic)
  | badHeader     -- `read_head` writes behind the end of `log.lh`
  | invalid       -- "invalid file system"
  | outOfBlocks   -- "balloc: out of blocks"
  | freeingFree   -- "freeing free block"
  | noInodes      -- "ialloc: no inodes"
  | tableFull     -- "iget: no inodes"
  | ilock
  | noType        -- "ilock: no type"
  | iunlock
  | bmap          -- "bmap: out of range"
  | notDir        -- "dirlookup not DIR"
  | dirlookup     -- "dirlookup read"
  | dirlinkRead   -- "dirlink read"
  | dirlink
  | isdirempty    -- "isdirempty: readi"
  | unlinkNlink   -- "unlink: nlink < 1"
  | unlinkWritei  -- "unlink: writei"
  | createDots    -- "create dots"
  | createDirlink -- "create: dirlink"
  | filedup
  | fileclose
  | fileread
  | filewrite
  | initExiting   -- "init exiting"
  | blocked       -- no panic: the process waits for what it holds itself
  | freedPipe     -- no panic: a pipe that is no longer there
  | impossible    -- no panic: such a process, descriptor or free page does not exist
  deriving DecidableEq, Repr

/-- Code of the kernel. If it stops, the state at that moment is part of the error. -/
abbrev Kern := Prog State (Panic × State)

def panic {α : Type} (e : Panic) : Kern α := fun s => .error (e, s)

@[simp] theorem spec_panic {α : Type} {e : Panic} {s : State} {Q : α → State → Prop}
    {E : Panic × State → Prop} : Spec (panic e : Kern α) s Q E ↔ E (e, s) := by
  unfold Spec panic
  exact Iff.rfl

def setInode (ip : Ip) (x : Inode) : Kern Unit :=
  modify fun s => { s with itable := update s.itable ip x }

def setDin (ip : Ip) (f : Dinode → Dinode) : Kern Unit := do
  let x := (← get).itable ip
  setInode ip { x with din := f x.din }

/-! ## The log -/

def bread (b : ℕ) : Kern Block := do
  return (← get).blk b

/-- Change the data of a buffer. -/
def store (b : ℕ) (v : Block) : Kern Unit :=
  modify fun s => { s with blk := update s.blk b v }

def bwrite (b : ℕ) (v : Block) : Kern Unit :=
  modify fun s =>
    { s with
      blk := update s.blk b v
      disk := update s.disk b v
      trace := update s.disk b v :: s.trace }

def logWrite (b : ℕ) : Kern Unit := do
  match Logging.logWrite (← get).log b with
  | .error e => panic (.log e)
  | .ok (l, _) => modify fun s => { s with log := l }

def beginOp : Kern Unit := do
  match Logging.beginOp (← get).log with
  | none => panic .blocked
  | some l => modify fun s => { s with log := l }

/-- `write_log`, from log block `tail` on. -/
def writeLog (tail : ℕ) : List ℕ → Kern Unit
  | [] => return
  | b :: bs => do
    let s ← get
    bwrite (s.sb.logstart + tail + 1) (s.blk b)
    writeLog (tail + 1) bs

def writeHead : Kern Unit := do
  let s ← get
  bwrite s.sb.logstart (Logging.putHead s.log.lh (s.blk s.sb.logstart))

/-- `install_trans`, from log block `tail` on. -/
def installTrans (tail : ℕ) : List ℕ → Kern Unit
  | [] => return
  | b :: bs => do
    let s ← get
    bwrite b (s.blk (s.sb.logstart + tail + 1))
    installTrans (tail + 1) bs

def clearHead : Kern Unit := modify fun s => { s with log := { s.log with lh := [] } }

def commit : Kern Unit := do
  let lh := (← get).log.lh
  if lh = [] then return
  else
    writeLog 0 lh
    writeHead
    installTrans 0 lh
    clearHead
    writeHead

def endOp : Kern Unit := do
  match Logging.endOp (← get).log with
  | .error e => panic (.log e)
  | .ok (l, doCommit) =>
    modify fun s => { s with log := l }
    if doCommit then
      commit
      modify fun s => { s with log := { s.log with committing := false } }
    else return

/-- `initlog`. -/
def initlog : Kern Unit := do
  modify fun s => { s with log := { size := s.sb.nlog } }
  let s ← get
  match Logging.getHead (s.blk s.sb.logstart) with
  | none => panic .badHeader
  | some lh =>
    installTrans 0 lh
    writeHead

def fsinit : Kern Unit := do
  modify fun s => { s with sb := Superblock.get (s.blk 1) }
  if (← get).sb.magic ≠ FSMAGIC then panic .invalid else initlog

/-! ## Blocks -/

def bzero (b : ℕ) : Kern Unit := do
  store b fun _ => 0
  logWrite b

/-- The first block from `b` on with a clear bit, among `n`. -/
def firstFree (sb : Superblock) (d : ℕ → Block) : ℕ → ℕ → Option ℕ
  | 0, _ => none
  | n + 1, b => if inUse sb d b then firstFree sb d n (b + 1) else some b

/-- `balloc`. Its two loops go over the blocks in order. -/
def balloc : Kern ℕ := do
  let s ← get
  match firstFree s.sb s.blk s.sb.size 0 with
  | none => panic .outOfBlocks
  | some b =>
    store (s.sb.BBLOCK b) (setBit (s.blk (s.sb.BBLOCK b)) (b % BPB))
    logWrite (s.sb.BBLOCK b)
    bzero b
    return b

def bfree (b : ℕ) : Kern Unit := do
  let s ← get
  if inUse s.sb s.blk b then
    store (s.sb.BBLOCK b) (clearBit (s.blk (s.sb.BBLOCK b)) (b % BPB))
    logWrite (s.sb.BBLOCK b)
  else panic .freeingFree

/-! ## The inode table -/

/-- `iget`. An entry in use for the number is taken first, else the first free one. -/
def iget (inum : ℕ) : Kern Ip := do
  let s ← get
  match (List.finRange NINODE).find? fun k => 0 < (s.itable k).ref ∧ (s.itable k).inum = inum with
  | some ip =>
    setInode ip { s.itable ip with ref := (s.itable ip).ref + 1 }
    return ip
  | none =>
    match (List.finRange NINODE).find? fun k => (s.itable k).ref = 0 with
    | none => panic .tableFull
    | some ip =>
      setInode ip { s.itable ip with inum := inum, ref := 1, valid := false }
      return ip

def idup (ip : Ip) : Kern Ip := do
  let x := (← get).itable ip
  setInode ip { x with ref := x.ref + 1 }
  return ip

/-- The loop of `ialloc`, over `n` numbers from `inum` on. -/
def iallocLoop (type : ℕ) : ℕ → ℕ → Kern Ip
  | 0, _ => panic .noInodes
  | n + 1, inum => do
    let s ← get
    if (dinode s.sb s.blk inum).type = 0 then
      store (s.sb.IBLOCK inum)
        (Dinode.put { type := type } (s.blk (s.sb.IBLOCK inum)) (64 * (inum % IPB)))
      logWrite (s.sb.IBLOCK inum)
      iget inum
    else iallocLoop type n (inum + 1)

def ialloc (type : ℕ) : Kern Ip := do
  iallocLoop type ((← get).sb.ninodes - 1) 1

def iupdate (ip : Ip) : Kern Unit := do
  let s ← get
  let x := s.itable ip
  store (s.sb.IBLOCK x.inum) (x.din.put (s.blk (s.sb.IBLOCK x.inum)) (64 * (x.inum % IPB)))
  logWrite (s.sb.IBLOCK x.inum)

def ilock (ip : Ip) : Kern Unit := do
  let s ← get
  let x := s.itable ip
  if x.ref < 1 then panic .ilock
  else if x.locked then panic .blocked
  else if x.valid then setInode ip { x with locked := true }
  else
    setInode ip { x with locked := true, valid := true, din := dinode s.sb s.blk x.inum }
    if (dinode s.sb s.blk x.inum).type = 0 then panic .noType else return

def iunlock (ip : Ip) : Kern Unit := do
  let x := (← get).itable ip
  if x.locked = false ∨ x.ref < 1 then panic .iunlock else setInode ip { x with locked := false }

/-! ## The contents of an inode -/

/-- The address of the indirect block. -/
def bmapIndirect (ip : Ip) : Kern ℕ := do
  let x := (← get).itable ip
  if x.din.addrs NDIRECT = 0 then
    let b ← balloc
    setDin ip fun din => { din with addrs := update din.addrs NDIRECT b }
    return b
  else return x.din.addrs NDIRECT

def bmap (ip : Ip) (bn : ℕ) : Kern ℕ := do
  let x := (← get).itable ip
  if bn < NDIRECT then
    if x.din.addrs bn = 0 then
      let b ← balloc
      setDin ip fun din => { din with addrs := update din.addrs bn b }
      return b
    else return x.din.addrs bn
  else if bn - NDIRECT < NINDIRECT then
    let addr ← bmapIndirect ip
    let a ← bread addr
    if a.get (4 * (bn - NDIRECT)) 4 = 0 then
      let b ← balloc
      let a ← bread addr
      store addr (a.set (4 * (bn - NDIRECT)) 4 b)
      logWrite addr
      return b
    else return a.get (4 * (bn - NDIRECT)) 4
  else panic .bmap

/-- The first loop of `itrunc`, over the addresses in the list. -/
def itruncDirect (ip : Ip) : List ℕ → Kern Unit
  | [] => return
  | i :: is => do
    let x := (← get).itable ip
    if x.din.addrs i ≠ 0 then
      bfree (x.din.addrs i)
      setDin ip fun din => { din with addrs := update din.addrs i 0 }
      itruncDirect ip is
    else itruncDirect ip is

/-- The second loop, over the words of the indirect block. -/
def itruncIndirect (b : ℕ) : List ℕ → Kern Unit
  | [] => return
  | j :: js => do
    let a ← bread b
    if a.get (4 * j) 4 ≠ 0 then
      bfree (a.get (4 * j) 4)
      itruncIndirect b js
    else itruncIndirect b js

def itruncRest (ip : Ip) : Kern Unit := do
  let b := ((← get).itable ip).din.addrs NDIRECT
  if b ≠ 0 then
    itruncIndirect b (List.range NINDIRECT)
    bfree b
    setDin ip fun din => { din with addrs := update din.addrs NDIRECT 0 }
  else return

def itrunc (ip : Ip) : Kern Unit := do
  itruncDirect ip (List.range NDIRECT)
  itruncRest ip
  setDin ip fun din => { din with size := 0 }
  iupdate ip

/-- The branch of `iput` that frees the inode. -/
def ifree (ip : Ip) : Kern Unit := do
  let x := (← get).itable ip
  if x.locked then panic .blocked
  else
    setInode ip { x with locked := true }
    itrunc ip
    setDin ip fun din => { din with type := 0 }
    iupdate ip
    let x := (← get).itable ip
    setInode ip { x with valid := false, locked := false }

/-- `ip->ref--`. -/
def iunref (ip : Ip) : Kern Unit := do
  let x := (← get).itable ip
  setInode ip { x with ref := x.ref - 1 }

def iput (ip : Ip) : Kern Unit := do
  let x := (← get).itable ip
  if x.ref = 1 ∧ x.valid = true ∧ x.din.nlink = 0 then
    ifree ip
    iunref ip
  else iunref ip

def iunlockput (ip : Ip) : Kern Unit := do
  iunlock ip
  iput ip

/-! ## User memory -/

def PGSIZE : ℕ := 4096

/-- The pages that the user may access. -/
abbrev UserMem := ℕ → Option Bytes

/-- `copyin`: the bytes that it copies, and whether it succeeds. Each round takes one page at most,
so `len` rounds are enough. -/
def copyinLoop (um : UserMem) : ℕ → ℕ → ℕ → List UInt8 × Bool
  | 0, _, _ => ([], true)
  | k + 1, va, len =>
    if len = 0 then ([], true)
    else
      match um (va / PGSIZE) with
      | none => ([], false)
      | some page =>
        let n := min len (PGSIZE - va % PGSIZE)
        let r := copyinLoop um k ((va / PGSIZE + 1) * PGSIZE) (len - n)
        (page.slice (va % PGSIZE) n ++ r.1, r.2)

def copyin (um : UserMem) (va len : ℕ) : List UInt8 × Bool := copyinLoop um len va len

/-- `copyinstr`, and with it `argstr`: the string without its end. -/
def copyinstr (um : UserMem) : ℕ → ℕ → Option (List UInt8)
  | 0, _ => none
  | max + 1, va =>
    match um (va / PGSIZE) with
    | none => none
    | some page =>
      if page (va % PGSIZE) = 0 then some []
      else (copyinstr um max (va + 1)).map (page (va % PGSIZE) :: ·)

/-- Where `readi` and `writei` copy from and to. -/
inductive Mem
  | kernel (p : List UInt8)
  | user (um : UserMem) (va : ℕ)

/-- `either_copyin` of `m` bytes from offset `tot`. -/
def eitherCopyin (src : Mem) (tot m : ℕ) : List UInt8 × Bool :=
  match src with
  | .kernel p => ((p.drop tot).take m, true)
  | .user um va => copyin um (va + tot) m

/-- Does `either_copyout` of `m` bytes to offset `tot` succeed? It goes over the same pages. -/
def eitherCopyout (dst : Mem) (tot m : ℕ) : Bool := (eitherCopyin dst tot m).2

/-- The loop of `readi`, which takes at least one byte in each round: the bytes copied, `none` for
`-1`. -/
def readiLoop (ip : Ip) (dst : Mem) : ℕ → ℕ → ℕ → ℕ → Kern (Option (List UInt8))
  | 0, _, _, _ => return some []
  | k + 1, tot, off, n =>
    if tot < n then do
      let b ← bmap ip (off / BSIZE)
      let d ← bread b
      let m := min (n - tot) (BSIZE - off % BSIZE)
      if eitherCopyout dst tot m then
        let r ← readiLoop ip dst k (tot + m) (off + m) n
        return r.map (d.slice (off % BSIZE) m ++ ·)
      else return none
    else return some []

def readi (ip : Ip) (dst : Mem) (off n : ℕ) : Kern (Option (List UInt8)) := do
  let size := ((← get).itable ip).din.size
  if size < off ∨ (off + n) % 2 ^ 32 < off then return some []
  else
    let n := if size < off + n then size - off else n
    readiLoop ip dst n 0 off n

/-- The loop of `writei`: `tot` and `off` after it. -/
def writeiLoop (ip : Ip) (src : Mem) : ℕ → ℕ → ℕ → ℕ → Kern (ℕ × ℕ)
  | 0, tot, off, _ => return (tot, off)
  | k + 1, tot, off, n =>
    if tot < n then do
      let b ← bmap ip (off / BSIZE)
      let d ← bread b
      let m := min (n - tot) (BSIZE - off % BSIZE)
      let r := eitherCopyin src tot m
      store b (d.blit (off % BSIZE) r.1)
      if r.2 then
        logWrite b
        writeiLoop ip src k (tot + m) (off + m) n
      else return (tot, off)
    else return (tot, off)

/-- `writei`, with `none` for `-1`. -/
def writei (ip : Ip) (src : Mem) (off n : ℕ) : Kern (Option ℕ) := do
  let size := ((← get).itable ip).din.size
  if size < off ∨ (off + n) % 2 ^ 32 < off then return none
  else if MAXFILE * BSIZE < off + n then return none
  else
    let (tot, off) ← writeiLoop ip src n 0 off n
    setDin ip fun din => { din with size := max din.size off }
    iupdate ip
    return some tot

end TatakOS.Fs
