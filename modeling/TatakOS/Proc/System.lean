import Mathlib.Data.Fintype.Basic
import Mathlib.Logic.Function.Basic
import Mathlib.Data.Int.ModEq
import Mathlib.Tactic.Simps.Basic
import TatakOS.Base.Run

/-!
# The process table and the steps of fork, exit, wait, kill, sleep and wakeup

One action of `step` is the code of `proc.c` between two lock operations: a critical section under
one `p->lock` is one step, and `wait_lock` and a `p->lock` that stay taken over several steps are
part of the state. Where a process is in the kernel is its program counter `Pc`. At `Pc.user` it may
start any call, sleep on any other channel and wake any other channel. There is no bound on the
number of CPUs. `history` is a history variable.
-/

namespace TatakOS.ProcTable

open Function

/-- Size of the process table. -/
def NPROC : ℕ := 64

theorem NPROC_pos : 0 < NPROC := by decide

/-- A slot of `proc[]`, that is, a `struct proc *`. -/
abbrev Slot := Fin NPROC

inductive ProcState
  | UNUSED | USED | SLEEPING | RUNNABLE | RUNNING | ZOMBIE
  deriving DecidableEq, Repr

/-- A sleep channel: the address of a `struct proc` (used by `wait`) or another kernel address. -/
inductive Chan
  | proc (p : Slot)
  | addr (a : ℕ)
  deriving DecidableEq, Repr

/-- The fields of `struct proc` that `p->lock` and `wait_lock` protect. -/
structure Proc where
  state : ProcState := .UNUSED
  chan : Option Chan := none
  killed : Bool := false
  xstate : ℤ := 0
  pid : ℤ := 0
  parent : Option Slot := none
  deriving DecidableEq, Repr

/-- Who sleeps: `wait` on the process's own address under `wait_lock`, or other kernel code on
another address, under a lock that is not part of this model. -/
inductive Sleep
  | wait
  | other (a : ℕ)
  deriving DecidableEq, Repr

/-- The channel of a sleep of process `p`. -/
def Sleep.chan (p : Slot) : Sleep → Chan
  | .wait => .proc p
  | .other a => .addr a

/-- Where a process is in the code. -/
inductive Pc
  /-- `UNUSED`, or a zombie that has left its CPU for good. -/
  | dead
  /-- Allocated: its saved context starts at `forkret`. -/
  | newborn
  /-- In `forkret`, holding `p->lock` from `scheduler`. -/
  | forkret
  | user
  /-- `fork`: `allocproc` looks at slot `i`. -/
  | forkScan (i : ℕ)
  /-- `fork`: before `acquire(&wait_lock); np->parent = p`. -/
  | forkLink (np : Slot)
  /-- `fork`: before `acquire(&np->lock); np->state = RUNNABLE`. -/
  | forkRun (np : Slot)
  /-- `reparent` at slot `i`. -/
  | exitReparent (status : ℤ) (i : ℕ)
  /-- `wakeup(initproc)` at slot `j`, called by `reparent` at slot `i`. -/
  | exitWakeInit (status : ℤ) (i j : ℕ)
  /-- `wakeup(p->parent)` at slot `j`. -/
  | exitWakeParent (status : ℤ) (ch : Option Chan) (j : ℕ)
  /-- Before `acquire(&p->lock)` in `exit`. -/
  | exitZombie (status : ℤ)
  /-- Before `release(&wait_lock)` in `exit`. -/
  | exitRelease
  /-- Before `sched()` in `exit`. -/
  | exitSched
  /-- `wait` looks at slot `i`. -/
  | waitScan (i : ℕ) (havekids : Bool)
  /-- Before the last `release(&wait_lock)` of `wait`. -/
  | waitReturn
  /-- `sleep`: before `acquire(&p->lock)`. -/
  | sleepLock (k : Sleep)
  /-- `sleep`: before `release(lk)`. -/
  | sleepRelease (k : Sleep)
  /-- `sleep`: before `p->chan = chan; p->state = SLEEPING`. -/
  | sleepSet (k : Sleep)
  /-- `sleep`: before `sched()`. -/
  | sleepSched (k : Sleep)
  /-- `sleep`: switched away. -/
  | asleep (k : Sleep)
  /-- `sleep`: running again, holding `p->lock` from `scheduler`. -/
  | sleepTidy (k : Sleep)
  /-- `sleep`: before `acquire(lk)`. -/
  | sleepReacquire (k : Sleep)
  /-- `kill(pid)` looks at slot `i`. -/
  | killScan (pid : ℤ) (i : ℕ)
  /-- `wakeup` of another channel, at slot `j`. -/
  | wakeScan (a j : ℕ)
  deriving DecidableEq, Repr

/-- Where a process is in `yield`, which a timer interrupt may call wherever no spinlock is
held. -/
inductive Yield
  | none
  /-- `RUNNABLE`, before `sched()`. -/
  | sched
  /-- Switched away. -/
  | off
  /-- Running again, holding `p->lock` from `scheduler`. -/
  | back
  deriving DecidableEq, Repr

inductive Event
  /-- `fork` by `p` allocated `np`. -/
  | forked (p np : Slot) (pid : ℤ)
  /-- `p` became a zombie. -/
  | exited (p : Slot) (pid status : ℤ)
  /-- `wait` by `p` returned `pid` and stored `status`; it freed `np`. -/
  | reaped (p np : Slot) (pid status : ℤ)
  /-- `wait` by `p` found the zombie `np`, but its `copyout` failed. -/
  | copyoutFailed (p np : Slot)
  /-- `kill(pid)` by `p` found `q` and returned 0. -/
  | killed (p q : Slot) (pid : ℤ)
  deriving DecidableEq, Repr

structure Kernel where
  proc : Slot → Proc
  nextpid : ℤ
  /-- The holder of `wait_lock`. -/
  waitLock : Option Slot
  /-- `p->lock` is held from one step to the next. -/
  lock : Slot → Bool
  pc : Slot → Pc
  yield : Slot → Yield
  history : List Event

namespace Kernel

@[simps -fullyApplied]
def setProc (s : Kernel) (q : Slot) (x : Proc) : Kernel :=
  { s with proc := update s.proc q x }

@[simps -fullyApplied]
def setPc (s : Kernel) (p : Slot) (k : Pc) : Kernel := { s with pc := update s.pc p k }

@[simps -fullyApplied]
def setLock (s : Kernel) (p : Slot) (b : Bool) : Kernel :=
  { s with lock := update s.lock p b }

@[simps -fullyApplied]
def setYield (s : Kernel) (p : Slot) (y : Yield) : Kernel :=
  { s with yield := update s.yield p y }

@[simps -fullyApplied]
def setWaitLock (s : Kernel) (w : Option Slot) : Kernel := { s with waitLock := w }

@[simps -fullyApplied]
def record (s : Kernel) (e : Event) : Kernel := { s with history := s.history ++ [e] }

end Kernel

/-- `initproc`: `userinit` allocates the first slot. -/
def initproc : Slot := ⟨0, NPROC_pos⟩

/-- The state after `userinit`. -/
def userinit : Kernel where
  proc p := if p = initproc then { state := .RUNNABLE, pid := 1 } else {}
  nextpid := 2
  waitLock := none
  lock _ := false
  pc p := if p = initproc then .newborn else .dead
  yield _ := .none
  history := []

/-- A 32-bit `int`, wrapping around. -/
def int32 (x : ℤ) : ℤ := Int.bmod x (2 ^ 32)

/-- `pid = nextpid; nextpid = nextpid + 1`, under `pid_lock`. -/
@[simps -fullyApplied]
def allocpid (s : Kernel) : ℤ × Kernel := (s.nextpid, { s with nextpid := int32 (s.nextpid + 1) })

/-- The fields `freeproc` leaves. -/
def freeproc : Proc := { state := .UNUSED, chan := none, killed := false, xstate := 0, pid := 0,
                         parent := none }

/-- `allocproc` on the `UNUSED` slot `np`: the new pid, and `p->killed` and the other fields as
they are. -/
def allocproc (s : Kernel) (np : Slot) : Kernel :=
  let (pid, s) := allocpid s
  (s.setProc np { s.proc np with pid := pid, state := .USED }).setPc np .newborn

/-- `allocproc`, or `fork` after it, runs out of memory: `freeproc(np)`. -/
def allocprocFails (s : Kernel) (np : Slot) : Kernel := (allocpid s).2.setProc np freeproc

/-- What `wakeup(ch)` does to one process. -/
def wakeup1 (ch : Option Chan) (x : Proc) : Proc :=
  if x.state = .SLEEPING ∧ x.chan = ch then { x with state := .RUNNABLE } else x

/-- What `kill` does to the process it finds. -/
@[simps -fullyApplied chan parent pid xstate killed]
def kill1 (x : Proc) : Proc :=
  { x with killed := true, state := if x.state = .SLEEPING then .RUNNABLE else x.state }

/-- What a process chooses, or what the rest of the kernel answers: the call it starts, and
whether an allocation or a `copyout` succeeds (`go`) or fails. -/
inductive Choice
  | fork
  | exit (status : ℤ)
  | wait
  | kill (pid : ℤ)
  | sleepOn (a : ℕ)
  | wakeup (a : ℕ)
  | go
  | fail
  deriving DecidableEq, Repr

/-- One step of the loop of `wakeup(ch)` by `p` at slot `j < NPROC`, going on at `k`. -/
def wakeupStep (s : Kernel) (p : Slot) (ch : Option Chan) (j : Slot) (k : Pc) : Option Kernel :=
  if j = p then some (s.setPc p k)
  else if s.lock j then none
  else some ((s.setProc j (wakeup1 ch (s.proc j))).setPc p k)

/-- The start of a call. -/
def userStep (s : Kernel) (p : Slot) : Choice → Option Kernel
  | .fork => some (s.setPc p (.forkScan 0))
  | .exit status =>
    if p = initproc then none      -- panic("init exiting")
    else if s.waitLock = none then
      some ((s.setWaitLock (some p)).setPc p (.exitReparent status 0))
    else none
  | .wait =>
    if s.waitLock = none then some ((s.setWaitLock (some p)).setPc p (.waitScan 0 false))
    else none
  | .kill pid => some (s.setPc p (.killScan pid 0))
  | .sleepOn a => some (s.setPc p (.sleepLock (.other a)))
  | .wakeup a => some (s.setPc p (.wakeScan a 0))
  | .go | .fail => none

/-- `fork`'s search for a free slot at `i`; with `fail` it runs out of memory there. -/
def forkScanStep (s : Kernel) (p : Slot) (i : ℕ) (c : Choice) : Option Kernel :=
  if h : i < NPROC then
    let np : Slot := ⟨i, h⟩
    if s.lock np then none
    else if (s.proc np).state = .UNUSED then
      if c = .fail then some ((allocprocFails s np).setPc p .user)
      else some (((allocproc s np).setPc p (.forkLink np)).record (.forked p np s.nextpid))
    else some (s.setPc p (.forkScan (i + 1)))
  else some (s.setPc p .user)

/-- `reparent` at slot `i`. -/
def reparentStep (s : Kernel) (p : Slot) (status : ℤ) (i : ℕ) : Kernel :=
  if h : i < NPROC then
    let pp : Slot := ⟨i, h⟩
    if (s.proc pp).parent = some p then
      (s.setProc pp { s.proc pp with parent := some initproc }).setPc p (.exitWakeInit status i 0)
    else s.setPc p (.exitReparent status (i + 1))
  else s.setPc p (.exitWakeParent status ((s.proc p).parent.map .proc) 0)

/-- `wait`'s scan at slot `i`; with `fail` its `copyout` fails. -/
def waitScanStep (s : Kernel) (p : Slot) (i : ℕ) (havekids : Bool) (c : Choice) : Option Kernel :=
  if h : i < NPROC then
    let np : Slot := ⟨i, h⟩
    if (s.proc np).parent = some p then
      if s.lock np then none
      else if (s.proc np).state = .ZOMBIE then
        if c = .fail then some ((s.setPc p .waitReturn).record (.copyoutFailed p np))
        else some (((s.setProc np freeproc).setPc p .waitReturn).record
          (.reaped p np (s.proc np).pid (s.proc np).xstate))
      else some (s.setPc p (.waitScan (i + 1) true))
    else some (s.setPc p (.waitScan (i + 1) havekids))
  else if !havekids || (s.proc p).killed then some (s.setPc p .waitReturn)
  else some (s.setPc p (.sleepLock .wait))

/-- `kill(pid)` at slot `i`. -/
def killScanStep (s : Kernel) (p : Slot) (pid : ℤ) (i : ℕ) : Option Kernel :=
  if h : i < NPROC then
    let q : Slot := ⟨i, h⟩
    if s.lock q then none
    else if (s.proc q).pid = pid then
      some (((s.setProc q (kill1 (s.proc q))).setPc p .user).record (.killed p q pid))
    else some (s.setPc p (.killScan pid (i + 1)))
  else some (s.setPc p .user)

/-- The next step of `p`, outside `yield`. -/
def exec (s : Kernel) (p : Slot) (c : Choice) : Option Kernel :=
  match s.pc p with
  | .dead | .newborn | .asleep _ => none
  | .user => userStep s p c
  | .forkret => some ((s.setLock p false).setPc p .user)
  | .forkScan i => forkScanStep s p i c
  | .forkLink np =>
    if s.waitLock = none then
      some ((s.setProc np { s.proc np with parent := some p }).setPc p (.forkRun np))
    else none
  | .forkRun np =>
    if s.lock np then none
    else some ((s.setProc np { s.proc np with state := .RUNNABLE }).setPc p .user)
  | .exitReparent status i => some (reparentStep s p status i)
  | .exitWakeInit status i j =>
    if h : j < NPROC then
      wakeupStep s p (some (.proc initproc)) ⟨j, h⟩ (.exitWakeInit status i (j + 1))
    else some (s.setPc p (.exitReparent status (i + 1)))
  | .exitWakeParent status ch j =>
    if h : j < NPROC then wakeupStep s p ch ⟨j, h⟩ (.exitWakeParent status ch (j + 1))
    else some (s.setPc p (.exitZombie status))
  | .exitZombie status =>
    if s.lock p then none
    else some ((((s.setLock p true).setProc p
      { s.proc p with xstate := status, state := .ZOMBIE }).setPc p .exitRelease).record
        (.exited p (s.proc p).pid status))
  | .exitRelease => some ((s.setWaitLock none).setPc p .exitSched)
  | .exitSched => some ((s.setLock p false).setPc p .dead)
  | .waitScan i havekids => waitScanStep s p i havekids c
  | .waitReturn => some ((s.setWaitLock none).setPc p .user)
  | .sleepLock k => if s.lock p then none else some ((s.setLock p true).setPc p (.sleepRelease k))
  | .sleepRelease .wait => some ((s.setWaitLock none).setPc p (.sleepSet .wait))
  | .sleepRelease (.other a) => some (s.setPc p (.sleepSet (.other a)))
  | .sleepSet k =>
    some ((s.setProc p { s.proc p with chan := some (k.chan p), state := .SLEEPING }).setPc p
      (.sleepSched k))
  | .sleepSched k => some ((s.setLock p false).setPc p (.asleep k))
  | .sleepTidy k =>
    some (((s.setProc p { s.proc p with chan := none }).setLock p false).setPc p
      (.sleepReacquire k))
  | .sleepReacquire .wait =>
    if s.waitLock = none then some ((s.setWaitLock (some p)).setPc p (.waitScan 0 false))
    else none
  | .sleepReacquire (.other _) => some (s.setPc p .user)
  | .killScan pid i => killScanStep s p pid i
  | .wakeScan a j =>
    if h : j < NPROC then wakeupStep s p (some (.addr a)) ⟨j, h⟩ (.wakeScan a (j + 1))
    else some (s.setPc p .user)

/-- No spinlock is held here, so interrupts are on. -/
def Pc.interruptible : Pc → Bool
  | .user | .forkScan _ | .forkLink _ | .forkRun _ | .killScan _ _ | .sleepReacquire _ => true
  | _ => false

/-- Where the saved context of a process that `scheduler` switches to goes on. -/
def Pc.resume : Pc → Pc
  | .newborn => .forkret
  | .asleep k => .sleepTidy k
  | k => k

/-- `scheduler` takes `p->lock`, finds `p` `RUNNABLE` and switches to it. -/
def scheduler (s : Kernel) (p : Slot) : Option Kernel :=
  if s.lock p then none
  else if (s.proc p).state = .RUNNABLE then
    let s := (s.setLock p true).setProc p { s.proc p with state := .RUNNING }
    if s.yield p = .off then some (s.setYield p .back) else some (s.setPc p (s.pc p).resume)
  else none

inductive Act
  /-- Process `p` takes its next step. -/
  | exec (p : Slot) (c : Choice)
  /-- Some CPU's `scheduler` switches to `p`. -/
  | schedule (p : Slot)
  /-- A timer interrupt makes `p` call `yield`. -/
  | preempt (p : Slot)
  deriving DecidableEq, Repr

def step (s : Kernel) : Act → Option Kernel
  | .exec p c =>
    match s.yield p with
    | .none => exec s p c
    | .sched => some ((s.setLock p false).setYield p .off)
    | .off => none
    | .back => some ((s.setLock p false).setYield p .none)
  | .schedule p => scheduler s p
  | .preempt p =>
    if s.yield p = .none ∧ (s.pc p).interruptible ∧ s.lock p = false then
      some (((s.setLock p true).setProc p { s.proc p with state := .RUNNABLE }).setYield p .sched)
    else none

/-- A state that some run from boot reaches. -/
def Reachable (s : Kernel) : Prop := ∃ as, run step userinit as = some s

end TatakOS.ProcTable
