import TatakOS.Base.Spec
import TatakOS.Fs.Files

/-!
# `mkfs`

`script/mkfs.c`, on an image file of whole sectors. A host file is its path and what `open` and
the calls of `read` give. `Mk.writes` records the writes to the image, with what they are for; the
program does not read it.
-/

namespace TatakOS.Fs.Mkfs

open Function

def NINODES : ℕ := 200
def FSSIZE : ℕ := 1000

def nbitmap : ℕ := FSSIZE / (BSIZE * 8) + 1
def ninodeblocks : ℕ := NINODES / IPB + 1
def nlog : ℕ := Logging.LOGSIZE
def nmeta : ℕ := 2 + nlog + ninodeblocks + nbitmap
def nblocks : ℕ := FSSIZE - nmeta

def sb : Superblock where
  magic := FSMAGIC
  size := FSSIZE
  nblocks := nblocks
  ninodes := NINODES
  nlog := nlog
  logstart := 2
  inodestart := 2 + nlog
  bmapstart := 2 + nlog + ninodeblocks

/-- What a sector is written for. -/
inductive Item
  | zero
  | super
  | inode (i : ℕ)
  /-- Data of file `i`. -/
  | data (i : ℕ)
  /-- The indirect block of file `i`. -/
  | indirect (i : ℕ)
  | bitmap
  deriving DecidableEq, Repr

structure Write where
  item : Item
  sec : ℕ
  old : Block
  new : Block

structure Mk where
  img : ℕ → Block := fun _ _ => 0
  /-- The sectors of the image file. -/
  len : ℕ := 0
  freeinode : ℕ := 1
  freeblock : ℕ := 0
  writes : List Write := []

inductive Exit
  /-- `die`, with status 1. -/
  | die
  /-- A failed `assert`. -/
  | abort
  deriving DecidableEq, Repr

abbrev MkM := Prog Mk Exit

/-- `wsect`. Writing behind the end makes the file longer. -/
def wsect (item : Item) (sec : ℕ) (buf : Block) : MkM Unit :=
  modify fun s =>
    { s with
      img := update s.img sec buf
      len := max s.len (sec + 1)
      writes := ⟨item, sec, s.img sec, buf⟩ :: s.writes }

/-- `rsect`. Reading behind the end gives less than a sector. -/
def rsect (sec : ℕ) : MkM Block := do
  let s ← get
  if sec < s.len then return s.img sec else throw .die

def winode (inum : ℕ) (ip : Dinode) : MkM Unit := do
  let bn := sb.IBLOCK inum
  let buf ← rsect bn
  wsect (.inode inum) bn (ip.put buf (64 * (inum % IPB)))

def rinode (inum : ℕ) : MkM Dinode := do
  let buf ← rsect (sb.IBLOCK inum)
  return Dinode.get buf (64 * (inum % IPB))

def ialloc (type : ℕ) : MkM ℕ := do
  let inum := (← get).freeinode
  modify fun s => { s with freeinode := s.freeinode + 1 }
  winode inum { type := type, nlink := 1 }
  return inum

/-- `freeblock++`. -/
def nextBlock : MkM ℕ := do
  let b := (← get).freeblock
  modify fun s => { s with freeblock := s.freeblock + 1 }
  return b

/-- The inode with an indirect block. -/
def iappendIndirect (din : Dinode) : MkM Dinode :=
  if din.addrs NDIRECT = 0 then do
    let b ← nextBlock
    return { din with addrs := update din.addrs NDIRECT b }
  else return din

/-- The block for block `fbn` of file `inum`, and the inode with it. -/
def iappendBlock (inum : ℕ) (din : Dinode) (fbn : ℕ) : MkM (Dinode × ℕ) :=
  if fbn < NDIRECT then
    if din.addrs fbn = 0 then do
      let b ← nextBlock
      return ({ din with addrs := update din.addrs fbn b }, b)
    else return (din, din.addrs fbn)
  else do
    let din ← iappendIndirect din
    let indirect ← rsect (din.addrs NDIRECT)
    if indirect.get (4 * (fbn - NDIRECT)) 4 = 0 then
      let b ← nextBlock
      wsect (.indirect inum) (din.addrs NDIRECT) (indirect.set (4 * (fbn - NDIRECT)) 4 b)
      return (din, b)
    else return (din, indirect.get (4 * (fbn - NDIRECT)) 4)

/-- The loop of `iappend`. Each round takes at least one byte, so `p.length` rounds are enough. -/
def iappendLoop (inum : ℕ) : ℕ → Dinode → ℕ → List UInt8 → MkM (Dinode × ℕ)
  | 0, din, off, _ => return (din, off)
  | n + 1, din, off, p =>
    let fbn := off / BSIZE
    if p = [] then return (din, off)
    else if MAXFILE ≤ fbn then throw .abort
    else do
      let (din, x) ← iappendBlock inum din fbn
      let n1 := min p.length ((fbn + 1) * BSIZE - off)
      let buf ← rsect x
      wsect (.data inum) x (buf.blit (off - fbn * BSIZE) (p.take n1))
      iappendLoop inum n din (off + n1) (p.drop n1)

def iappend (inum : ℕ) (p : List UInt8) : MkM Unit := do
  let din ← rinode inum
  let (din, off) ← iappendLoop inum p.length din din.size p
  winode inum { din with size := off }

/-- `buf` in `balloc`: the bits of the first `used` blocks. -/
def usedBits : ℕ → Block
  | 0 => fun _ => 0
  | n + 1 => setBit (usedBits n) n

def balloc (used : ℕ) : MkM Unit :=
  if BSIZE * 8 ≤ used then throw .abort else wsect .bitmap sb.bmapstart (usedBits used)

/-- `argv[i]`: its characters, and what `open` and then `read` give. -/
structure HostFile where
  path : List UInt8
  nonul : (0 : UInt8) ∉ path
  /-- What the calls of `read` return before the first that returns 0 or fails; `none` if `open`
  fails. -/
  reads : Option (List (List UInt8))
  chunk : ∀ cs, reads = some cs → ∀ c ∈ cs, 0 < c.length ∧ c.length ≤ BSIZE

def underscore : UInt8 := 95

/-- What follows the last `'/'`. -/
def basename (path : List UInt8) : List UInt8 := (path.reverse.takeWhile (· ≠ slash)).reverse

/-- Skip a leading `'_'`. -/
def shortname (path : List UInt8) : List UInt8 :=
  match basename path with
  | [] => []
  | c :: cs => if c = underscore then cs else c :: cs

def appendAll (inum : ℕ) : List (List UInt8) → MkM Unit
  | [] => return
  | buf :: bufs => do
    iappend inum buf
    appendAll inum bufs

/-- One round of the loop over the files. -/
def addFile (rootino : ℕ) (f : HostFile) : MkM Unit :=
  if slash ∈ basename f.path then throw .abort
  else
    match f.reads with
    | none => throw .die
    | some bufs => do
      let inum ← ialloc T_FILE
      iappend rootino (dirent inum (shortname f.path))
      appendAll inum bufs

def addFiles (rootino : ℕ) : List HostFile → MkM Unit
  | [] => return
  | f :: fs => do
    addFile rootino f
    addFiles rootino fs

/-- The first loop of `main`, over the sectors from `sec` on. -/
def zeroSectors : ℕ → ℕ → MkM Unit
  | 0, _ => return
  | n + 1, sec => do
    wsect .zero sec fun _ => 0
    zeroSectors n (sec + 1)

/-- `main` up to the loop over the files. -/
def start : MkM ℕ := do
  modify fun s => { s with freeblock := nmeta }
  zeroSectors FSSIZE 0
  wsect .super 1 (sb.put fun _ => 0)
  let rootino ← ialloc T_DIR
  if rootino ≠ ROOTINO then throw .abort
  else
    iappend rootino (dirent rootino [dot])
    iappend rootino (dirent rootino [dot, dot])
    return rootino

/-- `main` after it. -/
def finish (rootino : ℕ) : MkM Unit := do
  let din ← rinode rootino
  winode rootino { din with size := (din.size / BSIZE + 1) * BSIZE }
  balloc (← get).freeblock

def main (files : List HostFile) : MkM Unit := do
  let rootino ← start
  addFiles rootino files
  finish rootino

/-- The image that `mkfs fs.img files...` leaves if it exits with status 0. -/
def mkfs (files : List HostFile) : Except Exit Mk := (main files {}).map (·.2)

end TatakOS.Fs.Mkfs
