import TatakOS.Base.FreeList
import TatakOS.Base.Spec

/-!
# Physical memory and page tables

`kalloc.c` and `vm.c`. Physical memory is one array of bytes: a free page holds the link of the
free list in its first word, and a page of a page table is 512 words. A null pointer that a function
returns is `none`. Which calls of `kalloc` fail although there is memory is left to `Config.fails`.
-/

namespace TatakOS.Mem

def PGSIZE : ℕ := 4096
def KERNBASE : ℕ := 0x80200000
def PHYSTOP : ℕ := KERNBASE + 128 * 1024 * 1024
def MAXVA : ℕ := 1 <<< (9 + 9 + 9 + 12 - 1)
def TRAMPOLINE : ℕ := MAXVA - PGSIZE
def TRAPFRAME : ℕ := TRAMPOLINE - PGSIZE

/-- On a `uint64`. -/
def PGROUNDUP (sz : ℕ) : ℕ := (sz + PGSIZE - 1) % 2 ^ 64 / PGSIZE * PGSIZE

def PGROUNDDOWN (a : ℕ) : ℕ := a / PGSIZE * PGSIZE

/-- What the code reads and never changes: where the linker put the trampoline page, `etext` and
`end`, and which calls of `kalloc` fail in any case. The kernel must leave some memory. -/
structure Config where
  trampoline : ℕ
  etext : ℕ
  kend : ℕ
  fails : ℕ → Bool
  kernbase_le : KERNBASE ≤ trampoline
  trampoline_aligned : trampoline % PGSIZE = 0
  etext_eq : etext = trampoline + PGSIZE
  etext_le : etext ≤ kend
  room : kend + 512 * PGSIZE ≤ PHYSTOP

inductive Panic
  | kfree
  | kalloc
  | walk
  | kvmmap
  | mappagesSize
  | mappagesRemap
  | uvmunmapAligned
  | uvmunmapWalk
  | uvmunmapMapped
  | uvmunmapLeaf
  | freewalkLeaf
  | uvmcopyPte
  | uvmcopyPresent
  | uvmclear
  | loadseg
  /-- The kernel uses a null pointer. -/
  | null
  deriving DecidableEq, Repr

structure Phys where
  mem : Bytes
  freelist : ℕ
  /-- How often `kalloc` was called. -/
  calls : ℕ

abbrev Vm := Prog Phys Panic

/-! ## Reading and writing memory -/

def load (a : ℕ) : Vm ℕ := do return (← get).mem.get a 8

def store (a w : ℕ) : Vm Unit := modify fun s => { s with mem := s.mem.set a 8 w }

def memset (a : ℕ) (v : UInt8) (n : ℕ) : Vm Unit :=
  modify fun s => { s with mem := s.mem.fill a n v }

def memmove (dst src n : ℕ) : Vm Unit := modify fun s => { s with mem := s.mem.move dst src n }

/-- Copy bytes that are not part of the modelled memory. -/
def put (a : ℕ) (l : List UInt8) : Vm Unit := modify fun s => { s with mem := s.mem.blit a l }

/-! ## The allocator -/

def kfree (cfg : Config) (pa : ℕ) : Vm Unit :=
  if pa % PGSIZE ≠ 0 ∨ pa < cfg.kend ∨ PHYSTOP ≤ pa then throw .kfree
  else modify fun s =>
    { s with mem := (s.mem.fill pa PGSIZE 1).set pa 8 s.freelist, freelist := pa }

def kalloc (cfg : Config) : Vm (Option ℕ) := do
  let s ← get
  if cfg.fails s.calls ∨ s.freelist = 0 then
    set { s with calls := s.calls + 1 }
    return none
  else
    set { mem := s.mem.fill s.freelist PGSIZE 5, freelist := s.mem.get s.freelist 8,
          calls := s.calls + 1 : Phys }
    return some s.freelist

/-! ## Page table entries -/

def PTE_V : ℕ := 1 <<< 0
def PTE_R : ℕ := 1 <<< 1
def PTE_W : ℕ := 1 <<< 2
def PTE_X : ℕ := 1 <<< 3
def PTE_U : ℕ := 1 <<< 4

def PA2PTE (pa : ℕ) : ℕ := pa >>> 12 <<< 10

def PTE2PA (pte : ℕ) : ℕ := pte >>> 10 <<< 12

def PTE_FLAGS (pte : ℕ) : ℕ := pte &&& 0x3FF

def PX (level va : ℕ) : ℕ := va >>> (12 + 9 * level) &&& 0x1FF

/-- One round of the loop of `walk`. -/
def walkLevel (cfg : Config) (va : ℕ) (alloc : Bool) (level pagetable : ℕ) : Vm (Option ℕ) := do
  let pte := pagetable + 8 * PX level va
  let w ← load pte
  if w &&& PTE_V ≠ 0 then return some (PTE2PA w)
  else if !alloc then return none
  else
    match ← kalloc cfg with
    | none => return none
    | some page =>
      memset page 0 PGSIZE
      store pte (PA2PTE page ||| PTE_V)
      return some page

/-- The address of the entry for `va`. -/
def walk (cfg : Config) (pagetable va : ℕ) (alloc : Bool) : Vm (Option ℕ) :=
  if MAXVA ≤ va then throw .walk
  else do
    match ← walkLevel cfg va alloc 2 pagetable with
    | none => return none
    | some pt1 =>
      match ← walkLevel cfg va alloc 1 pt1 with
      | none => return none
      | some pt0 => return some (pt0 + 8 * PX 0 va)

/-- An address, or null. -/
def ptr (a : ℕ) : Option ℕ := if a = 0 then none else some a

def walkaddr (cfg : Config) (pagetable va : ℕ) : Vm (Option ℕ) :=
  if MAXVA ≤ va then return none
  else do
    match ← walk cfg pagetable va false with
    | none => return none
    | some pte =>
      let w ← load pte
      if w &&& PTE_V = 0 then return none
      else if w &&& PTE_U = 0 then return none
      else return ptr (PTE2PA w)

/-- One round of the loop of `mappages`; `false` if `walk` fails. -/
def mapOne (cfg : Config) (pagetable perm a pa : ℕ) : Vm Bool := do
  match ← walk cfg pagetable a true with
  | none => return false
  | some pte =>
    let w ← load pte
    if w &&& PTE_V ≠ 0 then throw .mappagesRemap
    else
      store pte (PA2PTE pa ||| perm ||| PTE_V)
      return true

/-- The loop of `mappages`, with `n` rounds after the first. -/
def mapLoop (cfg : Config) (pagetable perm : ℕ) : ℕ → ℕ → ℕ → Vm Bool
  | 0, a, pa => mapOne cfg pagetable perm a pa
  | n + 1, a, pa => do
    if ← mapOne cfg pagetable perm a pa then
      mapLoop cfg pagetable perm n (a + PGSIZE) ((pa + PGSIZE) % 2 ^ 64)
    else return false

/-- `true` is the return value 0. -/
def mappages (cfg : Config) (pagetable va size pa perm : ℕ) : Vm Bool :=
  if size = 0 then throw .mappagesSize
  else
    let a := PGROUNDDOWN va
    let last := PGROUNDDOWN (va + size - 1)
    mapLoop cfg pagetable perm ((last - a) / PGSIZE) a pa

/-- The loop of `uvmunmap`. -/
def unmapLoop (cfg : Config) (pagetable : ℕ) (doFree : Bool) : ℕ → ℕ → Vm Unit
  | 0, _ => return
  | n + 1, a => do
    match ← walk cfg pagetable a false with
    | none => throw .uvmunmapWalk
    | some pte =>
      let w ← load pte
      if w &&& PTE_V = 0 then throw .uvmunmapMapped
      else if PTE_FLAGS w = PTE_V then throw .uvmunmapLeaf
      else
        (if doFree then kfree cfg (PTE2PA w) else pure () : Vm Unit)
        store pte 0
        unmapLoop cfg pagetable doFree n (a + PGSIZE)

def uvmunmap (cfg : Config) (pagetable va npages : ℕ) (doFree : Bool) : Vm Unit :=
  if va % PGSIZE ≠ 0 then throw .uvmunmapAligned
  else unmapLoop cfg pagetable doFree npages va

def uvmcreate (cfg : Config) : Vm (Option ℕ) := do
  match ← kalloc cfg with
  | none => return none
  | some pagetable =>
    memset pagetable 0 PGSIZE
    return some pagetable

def uvmdealloc (cfg : Config) (pagetable oldsz newsz : ℕ) : Vm ℕ :=
  if oldsz ≤ newsz then return oldsz
  else if PGROUNDUP newsz < PGROUNDUP oldsz then do
    let npages := (PGROUNDUP oldsz - PGROUNDUP newsz) / PGSIZE
    uvmunmap cfg pagetable (PGROUNDUP newsz) npages true
    return newsz
  else return newsz

/-- The loop of `uvmalloc`. -/
def allocLoop (cfg : Config) (pagetable oldsz : ℕ) : ℕ → ℕ → Vm Bool
  | 0, _ => return true
  | n + 1, a => do
    match ← kalloc cfg with
    | none =>
      let _ ← uvmdealloc cfg pagetable a oldsz
      return false
    | some mem =>
      memset mem 0 PGSIZE
      if ← mappages cfg pagetable a PGSIZE mem (PTE_W ||| PTE_X ||| PTE_R ||| PTE_U) then
        allocLoop cfg pagetable oldsz n (a + PGSIZE)
      else
        kfree cfg mem
        let _ ← uvmdealloc cfg pagetable a oldsz
        return false

/-- The new size, or 0. -/
def uvmalloc (cfg : Config) (pagetable oldsz newsz : ℕ) : Vm ℕ :=
  if newsz < oldsz then return oldsz
  else do
    let oldsz := PGROUNDUP oldsz
    if ← allocLoop cfg pagetable oldsz ((newsz - oldsz + PGSIZE - 1) / PGSIZE) oldsz then
      return newsz
    else return 0

/-- The loop of `freewalk`; `sub` frees the table that an entry points to. -/
def freeEntries (sub : ℕ → Vm Unit) (pagetable : ℕ) : List ℕ → Vm Unit
  | [] => return
  | i :: is => do
    let pte ← load (pagetable + 8 * i)
    if pte &&& PTE_V ≠ 0 ∧ pte &&& (PTE_R ||| PTE_W ||| PTE_X) = 0 then
      sub (PTE2PA pte)
      store (pagetable + 8 * i) 0
      freeEntries sub pagetable is
    else if pte &&& PTE_V ≠ 0 then throw .freewalkLeaf
    else freeEntries sub pagetable is

/-- `freewalk` on a table with at most `d` levels. -/
def freewalk (cfg : Config) : ℕ → ℕ → Vm Unit
  | 0, _ => throw .null
  | d + 1, pagetable => do
    freeEntries (freewalk cfg d) pagetable (List.range 512)
    kfree cfg pagetable

def uvmfree (cfg : Config) (pagetable sz : ℕ) : Vm Unit := do
  (if 0 < sz then uvmunmap cfg pagetable 0 (PGROUNDUP sz / PGSIZE) true else pure () : Vm Unit)
  freewalk cfg 3 pagetable

/-- The loop of `uvmcopy`. -/
def copyLoop (cfg : Config) (old new : ℕ) : ℕ → ℕ → Vm Bool
  | 0, _ => return true
  | n + 1, i => do
    match ← walk cfg old i false with
    | none => throw .uvmcopyPte
    | some pte =>
      let w ← load pte
      if w &&& PTE_V = 0 then throw .uvmcopyPresent
      else
        match ← kalloc cfg with
        | none =>
          uvmunmap cfg new 0 (i / PGSIZE) true
          return false
        | some mem =>
          memmove mem (PTE2PA w) PGSIZE
          if ← mappages cfg new i PGSIZE mem (PTE_FLAGS w) then
            copyLoop cfg old new n (i + PGSIZE)
          else
            kfree cfg mem
            uvmunmap cfg new 0 (i / PGSIZE) true
            return false

/-- `true` is the return value 0. -/
def uvmcopy (cfg : Config) (old new sz : ℕ) : Vm Bool :=
  copyLoop cfg old new ((sz + PGSIZE - 1) / PGSIZE) 0

def uvmclear (cfg : Config) (pagetable va : ℕ) : Vm Unit := do
  match ← walk cfg pagetable va false with
  | none => throw .uvmclear
  | some pte =>
    let w ← load pte
    store pte (w &&& (2 ^ 64 - 1 - PTE_U))

/-! ## Copies between kernel and user -/

/-- `copyout` of bytes; each round copies at least one. -/
def copyoutLoop (cfg : Config) (pagetable : ℕ) : ℕ → ℕ → List UInt8 → Vm Bool
  | 0, _, _ => return true
  | fuel + 1, dstva, src =>
    if src = [] then return true
    else do
      let va0 := PGROUNDDOWN dstva
      match ← walkaddr cfg pagetable va0 with
      | none => return false
      | some pa0 =>
        let n := min (PGSIZE - (dstva - va0)) src.length
        put (pa0 + (dstva - va0)) (src.take n)
        copyoutLoop cfg pagetable fuel (va0 + PGSIZE) (src.drop n)

def copyout (cfg : Config) (pagetable dstva : ℕ) (src : List UInt8) : Vm Bool :=
  copyoutLoop cfg pagetable src.length dstva src

/-- `copyin` of `len` bytes. -/
def copyinLoop (cfg : Config) (pagetable : ℕ) : ℕ → ℕ → ℕ → Vm (Option (List UInt8))
  | 0, _, _ => return some []
  | fuel + 1, srcva, len =>
    if len = 0 then return some []
    else do
      let va0 := PGROUNDDOWN srcva
      match ← walkaddr cfg pagetable va0 with
      | none => return none
      | some pa0 =>
        let n := min (PGSIZE - (srcva - va0)) len
        let s ← get
        match ← copyinLoop cfg pagetable fuel (va0 + PGSIZE) (len - n) with
        | none => return none
        | some l => return some (s.mem.slice (pa0 + (srcva - va0)) n ++ l)

def copyin (cfg : Config) (pagetable srcva len : ℕ) : Vm (Option (List UInt8)) :=
  copyinLoop cfg pagetable len srcva len

/-- The inner loop of `copyinstr`: the bytes it stores, and whether it has met a null byte. -/
def copyChars (m : Bytes) : ℕ → ℕ → List UInt8 × Bool
  | 0, _ => ([], false)
  | n + 1, p =>
    if m p = 0 then ([0], true)
    else
      let (l, gotNull) := copyChars m n (p + 1)
      (m p :: l, gotNull)

/-- What `copyinstr` has done: the bytes stored from `dst` on, the return value, and the pages it
has looked up. -/
structure Fetched where
  dst : List UInt8 := []
  ok : Bool := false
  pages : List ℕ := []

def copyinstrLoop (cfg : Config) (pagetable : ℕ) : ℕ → ℕ → ℕ → Vm Fetched
  | 0, _, _ => return {}
  | fuel + 1, srcva, max =>
    if max = 0 then return {}
    else do
      let va0 := PGROUNDDOWN srcva
      match ← walkaddr cfg pagetable va0 with
      | none => return { pages := [va0] }
      | some pa0 =>
        let n := min (PGSIZE - (srcva - va0)) max
        let (l, gotNull) := copyChars (← get).mem n (pa0 + (srcva - va0))
        if gotNull then return { dst := l, ok := true, pages := [va0] }
        else
          let r ← copyinstrLoop cfg pagetable fuel (va0 + PGSIZE) (max - n)
          return { dst := l ++ r.dst, ok := r.ok, pages := va0 :: r.pages }

def copyinstr (cfg : Config) (pagetable srcva max : ℕ) : Vm Fetched :=
  copyinstrLoop cfg pagetable max srcva max

/-- `strlen` of a buffer that holds a null byte. -/
def strlen (buf : List UInt8) : ℕ := (buf.takeWhile (· ≠ 0)).length

/-- `fetchstr`: the length, and the string that the buffer then holds. -/
def fetchstr (cfg : Config) (pagetable addr max : ℕ) : Vm (Option (ℕ × List UInt8)) := do
  let r ← copyinstr cfg pagetable addr max
  if r.ok then return some (strlen r.dst, r.dst.take (strlen r.dst)) else return none

end TatakOS.Mem
