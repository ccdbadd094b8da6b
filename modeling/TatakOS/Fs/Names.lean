import TatakOS.Fs.Kernel

/-!
# Directories and paths in the kernel

`dirlookup`, `dirlink` and `namex`. A path is a string without its end. The loops get as many rounds
as they can need.
-/

namespace TatakOS.Fs

open ProcTable (Slot)

/-! ## Directories -/

/-- Read the directory entry at `off`. -/
def readEntry (dp : Ip) (off : ℕ) (e : Panic) : Kern (List UInt8) := do
  match ← readi dp (.kernel []) off 16 with
  | some de => if de.length = 16 then return de else panic e
  | none => panic e

def dirlookupLoop (dp : Ip) (name : List UInt8) : ℕ → ℕ → Kern (Option (Ip × ℕ))
  | 0, _ => return none
  | k + 1, off => do
    if off < ((← get).itable dp).din.size then
      let de ← readEntry dp off .dirlookup
      if deInum de ≠ 0 ∧ namecmp name (deName de) then
        let ip ← iget (deInum de)
        return some (ip, off)
      else dirlookupLoop dp name k (off + 16)
    else return none

/-- The inode of the entry, and its offset. -/
def dirlookup (dp : Ip) (name : List UInt8) : Kern (Option (Ip × ℕ)) := do
  let x := (← get).itable dp
  if x.din.type ≠ T_DIR then panic .notDir else dirlookupLoop dp name (x.din.size / 16 + 1) 0

/-- The loop of `dirlink`: the offset of an empty entry, or of the end. -/
def emptyEntry (dp : Ip) : ℕ → ℕ → Kern ℕ
  | 0, off => return off
  | k + 1, off => do
    if off < ((← get).itable dp).din.size then
      let de ← readEntry dp off .dirlinkRead
      if deInum de = 0 then return off else emptyEntry dp k (off + 16)
    else return off

/-- Write an entry at `off`. -/
def writeEntry (dp : Ip) (off : ℕ) (de : List UInt8) (e : Panic) : Kern Unit := do
  match ← writei dp (.kernel de) off 16 with
  | some r => if r = 16 then return else panic e
  | none => panic e

/-- `dirlink`; `false` is `-1`. -/
def dirlink (dp : Ip) (name : List UInt8) (inum : ℕ) : Kern Bool := do
  match ← dirlookup dp name with
  | some (ip, _) =>
    iput ip
    return false
  | none =>
    let off ← emptyEntry dp (((← get).itable dp).din.size / 16 + 1) 0
    writeEntry dp off (dirent inum name) .dirlink
    return true

def isdiremptyLoop (dp : Ip) : ℕ → ℕ → Kern Bool
  | 0, _ => return true
  | k + 1, off => do
    if off < ((← get).itable dp).din.size then
      let de ← readEntry dp off .isdirempty
      if deInum de ≠ 0 then return false else isdiremptyLoop dp k (off + 16)
    else return true

def isdirempty (dp : Ip) : Kern Bool := do
  isdiremptyLoop dp (((← get).itable dp).din.size / 16 + 1) (2 * 16)

/-! ## Paths -/

/-- `skipelem`: the element and the rest. -/
def skipelem (path : List UInt8) : Option (List UInt8 × List UInt8) :=
  match path.dropWhile (· = slash) with
  | [] => none
  | c :: cs => some (((c :: cs).takeWhile (· ≠ slash)).take DIRSIZ,
      ((c :: cs).dropWhile (· ≠ slash)).dropWhile (· = slash))

def getProc (p : Slot) : Kern Proc := do
  match (← get).procs p with
  | some x => return x
  | none => panic .impossible

/-- The loop of `namex`: the inode, and the last element if there is one. -/
def namexLoop (parent : Bool) : ℕ → Ip → List UInt8 → List UInt8 → Kern (Option (Ip × List UInt8))
  | 0, _, _, _ => panic .impossible
  | k + 1, ip, path, name =>
    match skipelem path with
    | none =>
      if parent then do
        iput ip
        return none
      else return some (ip, name)
    | some (name, path) => do
      ilock ip
      if ((← get).itable ip).din.type ≠ T_DIR then
        iunlockput ip
        return none
      else if parent ∧ path = [] then
        iunlock ip
        return some (ip, name)
      else
        match ← dirlookup ip name with
        | none =>
          iunlockput ip
          return none
        | some (next, _) =>
          iunlockput ip
          namexLoop parent k next path name

/-- Where a path starts. -/
def startDir (p : Slot) (path : List UInt8) : Kern Ip :=
  if path.head? = some slash then iget ROOTINO
  else do
    let x ← getProc p
    idup x.cwd

def namex (p : Slot) (path : List UInt8) (parent : Bool) : Kern (Option (Ip × List UInt8)) := do
  let ip ← startDir p path
  namexLoop parent (path.length + 1) ip path []

def namei (p : Slot) (path : List UInt8) : Kern (Option Ip) := do
  let r ← namex p path false
  return r.map (·.1)

def nameiparent (p : Slot) (path : List UInt8) : Kern (Option (Ip × List UInt8)) := namex p path true

end TatakOS.Fs
