import TatakOS.Mem.Vm
import TatakOS.Proc.System

/-!
# Processes and pages

The memory of a process, and `growproc`, which is all that `sbrk` does. Of a process there is what
`growproc` and `exec` use. Calls into the file system are recorded, but not carried out.
-/

namespace TatakOS.Mem

open ProcTable (Slot)

def MAXARG : ℕ := 32
def MAXPATH : ℕ := 128

structure Proc where
  sz : ℕ := 0
  pagetable : Option ℕ := none
  trapframe : Option ℕ := none
  name : List UInt8 := []
  /-- The pages of `argv` and the arguments, while `sys_exec` is under way. -/
  args : Option (List ℕ × List (List UInt8)) := none

/-- A call into the file system. All but `namei` are about the inode that `namei` has found. -/
inductive FsCall
  | beginOp
  | namei (path : List UInt8)
  | ilock
  | iunlockput
  | endOp
  deriving DecidableEq, Repr

structure State where
  phys : Phys
  kernelPagetable : ℕ
  proc : Slot → Proc
  /-- The calls into the file system so far. -/
  fs : List FsCall := []

abbrev Kern := Prog State Panic

/-- Code of `vm.c`. -/
def vm {α : Type} (m : Vm α) : Kern α := zoom State.phys (fun ph s => { s with phys := ph }) m

def setProc (p : Slot) (x : Proc) : Kern Unit :=
  modify fun s => { s with proc := Function.update s.proc p x }

/-- A pointer that the code uses without looking. -/
def deref {α : Type} : Option α → Kern α
  | none => throw .null
  | some a => pure a

section Rules

variable {α : Type} {s : State} {E : Panic → Prop} {Q : α → State → Prop}

theorem spec_vm {m : Vm α} :
    Spec (vm m) s Q E ↔ Spec m s.phys (fun a ph => Q a { s with phys := ph }) E := spec_zoom

@[simp] theorem spec_setProc {p : Slot} {x : Proc} {Q : Unit → State → Prop} :
    Spec (setProc p x) s Q E ↔ Q () { s with proc := Function.update s.proc p x } := spec_modify

@[simp] theorem spec_deref_some {a : α} :
    Spec (deref (some a)) s Q E ↔ Q a s := spec_pure

end Rules

/-- The slot that `userinit` gets. -/
def initproc : Slot := ⟨0, ProcTable.NPROC_pos⟩

/-! ## Processes -/

def procPagetable (cfg : Config) (trapframe : ℕ) : Vm (Option ℕ) := do
  match ← uvmcreate cfg with
  | none => return none
  | some pagetable =>
    if ← mappages cfg pagetable TRAMPOLINE PGSIZE cfg.trampoline (PTE_R ||| PTE_X) then
      if ← mappages cfg pagetable TRAPFRAME PGSIZE trapframe (PTE_R ||| PTE_W) then
        return some pagetable
      else
        uvmunmap cfg pagetable TRAMPOLINE 1 false
        uvmfree cfg pagetable 0
        return none
    else
      uvmfree cfg pagetable 0
      return none

def procFreepagetable (cfg : Config) (pagetable sz : ℕ) : Vm Unit := do
  uvmunmap cfg pagetable TRAMPOLINE 1 false
  uvmunmap cfg pagetable TRAPFRAME 1 false
  uvmfree cfg pagetable sz

/-- `n` is an `int`, and `sz` a `uint`. -/
def growproc (cfg : Config) (p : Slot) (n : ℤ) : Kern Bool := do
  let x := (← get).proc p
  let pt ← deref x.pagetable
  let sz := x.sz % 2 ^ 32
  let newsz := ((sz + n) % 2 ^ 32).toNat
  if 0 < n then
    let sz' ← vm (uvmalloc cfg pt sz newsz)
    if sz' % 2 ^ 32 = 0 then return false
    else
      setProc p { x with sz := sz' % 2 ^ 32 }
      return true
  else if n < 0 then
    let sz' ← vm (uvmdealloc cfg pt sz newsz)
    setProc p { x with sz := sz' % 2 ^ 32 }
    return true
  else
    setProc p { x with sz := sz }
    return true

end TatakOS.Mem
