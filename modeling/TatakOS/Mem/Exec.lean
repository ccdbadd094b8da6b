import TatakOS.Mem.Kernel

/-!
# `exec`

`exec.c` and `sys_exec`. The file that `namei` finds is a size and bytes, since it stays locked while
it is read. Everything in it is arbitrary.
-/

namespace TatakOS.Mem

open ProcTable (Slot NPROC ProcState)

/-- The file that `exec` loads. -/
structure Image where
  size : ℕ
  data : Bytes

/-- `readi` into the kernel, with `uint` arguments. -/
def Image.readi (f : Image) (off n : ℕ) : List UInt8 :=
  if f.size < off ∨ (off + n) % 2 ^ 32 < off then []
  else if f.size < off + n then f.data.slice off (f.size - off)
  else f.data.slice off n

/-- The number at offset `o` of a header. -/
def field (l : List UInt8) (o w : ℕ) : ℕ := Bytes.get (fun i => l.getD i 0) o w

/-! ## Headers -/

structure ElfHdr where
  magic : ℕ
  entry : ℕ
  phoff : ℕ
  phnum : ℕ

def ElfHdr.ofBytes (l : List UInt8) : ElfHdr where
  magic := field l 0 4
  entry := field l 24 8
  phoff := field l 32 8
  phnum := field l 56 2

structure ProgHdr where
  type : ℕ
  off : ℕ
  vaddr : ℕ
  filesz : ℕ
  memsz : ℕ

def ProgHdr.ofBytes (l : List UInt8) : ProgHdr where
  type := field l 0 4
  off := field l 8 8
  vaddr := field l 16 8
  filesz := field l 32 8
  memsz := field l 40 8

def ELF_MAGIC : ℕ := 0x464C457F
def ELF_PROG_LOAD : ℕ := 1

/-- `sizeof(struct elfhdr)`. -/
def elfhdrSize : ℕ := 64

/-- `sizeof(struct proghdr)`. -/
def proghdrSize : ℕ := 56

/-! ## Segments -/

/-- The loop of `loadseg`. -/
def loadLoop (cfg : Config) (pagetable va : ℕ) (f : Image) (offset sz : ℕ) : ℕ → ℕ → Vm Bool
  | 0, _ => return true
  | n + 1, i => do
    match ← walkaddr cfg pagetable (va + i) with
    | none => throw .loadseg
    | some pa =>
      let k := min (sz - i) PGSIZE
      let bytes := f.readi ((offset + i) % 2 ^ 32) k
      put pa bytes
      if bytes.length ≠ k then return false
      else loadLoop cfg pagetable va f offset sz n (i + PGSIZE)

/-- `offset` and `sz` are `uint`. -/
def loadseg (cfg : Config) (pagetable va : ℕ) (f : Image) (offset sz : ℕ) : Vm Bool :=
  loadLoop cfg pagetable va f offset sz ((sz + PGSIZE - 1) / PGSIZE) 0

/-- The loop of `exec` over the program headers: the size so far, and whether it went well. -/
def loadSegments (cfg : Config) (pagetable : ℕ) (f : Image) : ℕ → ℕ → ℕ → Vm (ℕ × Bool)
  | 0, _, sz => return (sz, true)
  | n + 1, off, sz => do
    let bytes := f.readi off proghdrSize
    let ph := ProgHdr.ofBytes bytes
    if bytes.length ≠ proghdrSize then return (sz, false)
    else if ph.type ≠ ELF_PROG_LOAD then
      loadSegments cfg pagetable f n ((off + proghdrSize) % 2 ^ 32) sz
    else if ph.memsz < ph.filesz then return (sz, false)
    else if (ph.vaddr + ph.memsz) % 2 ^ 64 < ph.vaddr then return (sz, false)
    else
      let sz1 ← uvmalloc cfg pagetable sz ((ph.vaddr + ph.memsz) % 2 ^ 64)
      if sz1 = 0 then return (sz, false)
      else if ph.vaddr % PGSIZE ≠ 0 then return (sz1, false)
      else if ← loadseg cfg pagetable ph.vaddr f (ph.off % 2 ^ 32) (ph.filesz % 2 ^ 32) then
        loadSegments cfg pagetable f n ((off + proghdrSize) % 2 ^ 32) sz1
      else return (sz1, false)

/-! ## The stack -/

/-- `a - b` on `uint64`. -/
def sub64 (a b : ℕ) : ℕ := (a + 2 ^ 64 - b) % 2 ^ 64

/-- The eight bytes of a `uint64`. -/
def wordBytes (n : ℕ) : List UInt8 := (List.range 8).map fun i => UInt8.ofNat (n / 256 ^ i)

/-- The loop of `exec` over the arguments: `sp` and `ustack` at the end. -/
def pushArgs (cfg : Config) (pagetable stackbase : ℕ) :
    List (List UInt8) → ℕ → List ℕ → Vm (Option (ℕ × List ℕ))
  | [], sp, ustack => return some (sp, ustack)
  | arg :: args, sp, ustack => do
    if MAXARG ≤ ustack.length then return none
    else
      let sp := sub64 sp (arg.length + 1)
      let sp := sp - sp % 16
      if sp < stackbase then return none
      else if ← copyout cfg pagetable sp (arg ++ [0]) then
        pushArgs cfg pagetable stackbase args sp (ustack ++ [sp])
      else return none

/-- The arguments and the array of pointers to them; the result is `sp`. -/
def pushStack (cfg : Config) (pagetable sz : ℕ) (argv : List (List UInt8)) : Vm (Option ℕ) := do
  let stackbase := sz - PGSIZE
  match ← pushArgs cfg pagetable stackbase argv sz [] with
  | none => return none
  | some (sp, ustack) =>
    let sp := sub64 sp ((argv.length + 1) * 8)
    let sp := sp - sp % 16
    if sp < stackbase then return none
    else if ← copyout cfg pagetable sp ((ustack ++ [0]).flatMap wordBytes) then return some sp
    else return none

/-- The two pages behind the program, and what is in them: the size, and `sp` unless it failed. -/
def setupStack (cfg : Config) (pagetable sz : ℕ) (argv : List (List UInt8)) :
    Vm (ℕ × Option ℕ) := do
  let sz := PGROUNDUP sz
  let sz1 ← uvmalloc cfg pagetable sz (sz + 2 * PGSIZE)
  if sz1 = 0 then return (sz, none)
  else
    uvmclear cfg pagetable (sz1 - 2 * PGSIZE)
    return (sz1, ← pushStack cfg pagetable sz1 argv)

/-! ## `exec` -/

def fsCall (c : FsCall) : Kern Unit := modify fun s => { s with fs := s.fs ++ [c] }

/-- What comes behind the last `/`. -/
def lastName (path : List UInt8) : List UInt8 := (path.reverse.takeWhile (· ≠ 47)).reverse

/-- The string that `safestrcpy` leaves in a buffer of `n` bytes. -/
def safestrcpy (t : List UInt8) (n : ℕ) : List UInt8 := t.take (n - 1)

/-- The label `bad`; `locked` is whether `ip` is still in use. -/
def execBad (cfg : Config) (pagetable : Option ℕ) (sz : ℕ) (locked : Bool) :
    Kern (Option ℕ) := do
  (match pagetable with
    | some pt => vm (procFreepagetable cfg pt sz)
    | none => pure () : Kern Unit)
  if locked then
    fsCall .iunlockput
    fsCall .endOp
    return none
  else return none

/-- The offsets of registers in `struct trapframe`. -/
def epcOffset : ℕ := 24
def spOffset : ℕ := 48
def a1Offset : ℕ := 120

/-- The last part of `exec`, where nothing can fail. -/
def execCommit (cfg : Config) (p : Slot) (path : List UInt8) (entry argc tf pagetable sz sp : ℕ) :
    Kern (Option ℕ) := do
  let x := (← get).proc p
  vm (store (tf + a1Offset) sp)
  setProc p { x with name := safestrcpy (lastName path) 16, pagetable := some pagetable, sz := sz }
  vm (store (tf + epcOffset) entry)
  vm (store (tf + spOffset) sp)
  let old ← deref x.pagetable
  vm (procFreepagetable cfg old x.sz)
  return some argc

/-- `exec` with the file that `namei` finds; the result is `argc`, or none for -1. -/
def exec (cfg : Config) (p : Slot) (path : List UInt8) (file : Option Image)
    (argv : List (List UInt8)) : Kern (Option ℕ) := do
  fsCall .beginOp
  fsCall (.namei path)
  match file with
  | none =>
    fsCall .endOp
    return none
  | some f =>
    fsCall .ilock
    let bytes := f.readi 0 elfhdrSize
    let elf := ElfHdr.ofBytes bytes
    if bytes.length ≠ elfhdrSize then execBad cfg none 0 true
    else if elf.magic ≠ ELF_MAGIC then execBad cfg none 0 true
    else
      let tf ← deref ((← get).proc p).trapframe
      match ← vm (procPagetable cfg tf) with
      | none => execBad cfg none 0 true
      | some pagetable =>
        let (sz, ok) ← vm (loadSegments cfg pagetable f elf.phnum (elf.phoff % 2 ^ 32) 0)
        if !ok then execBad cfg (some pagetable) sz true
        else
          fsCall .iunlockput
          fsCall .endOp
          match ← vm (setupStack cfg pagetable sz argv) with
          | (sz, none) => execBad cfg (some pagetable) sz false
          | (sz, some sp) => execCommit cfg p path elf.entry argv.length tf pagetable sz sp

/-! ## `sys_exec` -/

def fetchaddr (cfg : Config) (pagetable sz addr : ℕ) : Vm (Option ℕ) := do
  if sz ≤ addr ∨ sz < addr + 8 then return none
  else
    match ← copyin cfg pagetable addr 8 with
    | none => return none
    | some l => return some (field l 0 8)

/-- The loop of `sys_exec` over the arguments: the pages that it has allocated, and the arguments
unless it failed. -/
def fetchArgs (cfg : Config) (pagetable sz uargv : ℕ) :
    ℕ → ℕ → Vm (List ℕ × Option (List (List UInt8)))
  | 0, _ => return ([], none)
  | n + 1, i => do
    match ← fetchaddr cfg pagetable sz ((uargv + 8 * i) % 2 ^ 64) with
    | none => return ([], none)
    | some uarg =>
      if uarg = 0 then return ([], some [])
      else
        match ← kalloc cfg with
        | none => return ([], none)
        | some page =>
          let r ← copyinstr cfg pagetable uarg PGSIZE
          put page r.dst
          if !r.ok then return ([page], none)
          else
            let (ps, args) ← fetchArgs cfg pagetable sz uargv n (i + 1)
            return (page :: ps, args.map (r.dst.take (strlen r.dst) :: ·))

def freeArgs (cfg : Config) : List ℕ → Vm Unit
  | [] => return
  | page :: ps => do
    kfree cfg page
    freeArgs cfg ps

/-- The first part of `sys_exec`; `path` and `uargv` are its arguments. The result is the path. -/
def sysExecArgs (cfg : Config) (p : Slot) (path uargv : ℕ) : Kern (Option (List UInt8)) := do
  let x := (← get).proc p
  let pt ← deref x.pagetable
  match ← vm (fetchstr cfg pt path MAXPATH) with
  | none => return none
  | some (_, path) =>
    let (ps, args) ← vm (fetchArgs cfg pt x.sz uargv MAXARG 0)
    match args with
    | none =>
      vm (freeArgs cfg ps)
      return none
    | some argv =>
      setProc p { x with args := some (ps, argv) }
      return some path

/-- The rest of `sys_exec`; `file` is what `namei` finds for the path. -/
def sysExecFile (cfg : Config) (p : Slot) (path : List UInt8) (file : Option Image) :
    Kern (Option ℕ) := do
  match ((← get).proc p).args with
  | none => return none
  | some (ps, argv) =>
    let ret ← exec cfg p path file argv
    vm (freeArgs cfg ps)
    let x := (← get).proc p
    setProc p { x with args := none }
    return ret

/-- `sys_exec` as a whole. -/
def sysExec (cfg : Config) (p : Slot) (path uargv : ℕ) (file : Option Image) :
    Kern (Option ℕ) := do
  match ← sysExecArgs cfg p path uargv with
  | none => return none
  | some path => sysExecFile cfg p path file

end TatakOS.Mem
