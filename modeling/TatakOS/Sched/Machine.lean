import TatakOS.Proc.System

/-!
# CPUs, spinlocks and context switches

Each CPU runs a stack of frames: its own `scheduler`, or the kernel stack of a process. One step is
one instruction of `proc.c` or `spinlock.c`; `acquire` is one step, taken when the lock is free.
`swtch` is two steps: the running stack is saved to a context, then the other one is loaded.

The rest of the kernel is the frame `code`, and `trap` for interrupts: they take and release other
spinlocks in any order, turn interrupts on and off while they hold none, and call `sleep` with the
one lock that they hold, `wakeup`, `yield`, `fork`, `exit`, `wait` and `kill`.
-/

namespace TatakOS.Sched

open ProcTable (Slot Proc ProcState Chan NPROC initproc freeproc wakeup1 kill1 int32)
open Function

inductive Lock (L : Type)
  | proc (p : Slot)
  | wait
  | other (l : L)
  deriving DecidableEq

inductive Panic
  | acquire | release | popOffInterruptible | popOff
  | schedLock | schedLocks | schedRunning | schedInterruptible
  | zombieExit | nullProc
  deriving DecidableEq

/-! ## Where the code is -/

inductive SchedulerPc
  /-- Before `intr_on()`. -/
  | loop
  | acquire (i : ℕ)
  | test (i : Slot)
  /-- Before `c->proc = p`. -/
  | setProc (i : Slot)
  | swtch (i : Slot)
  /-- After `swtch`, before `c->proc = 0`. -/
  | back (i : Slot)
  | release (i : Slot)

inductive YieldPc
  | acquire | set | release

inductive SleepPc
  | acquire
  /-- Before `release(lk)`. -/
  | drop
  | set
  /-- Before `p->chan = 0`. -/
  | tidy
  | release
  /-- Before `acquire(lk)`. -/
  | reacquire

inductive SchedPc
  | check
  | swtch (intena : Bool)
  /-- Before `mycpu()->intena = intena`. -/
  | back (intena : Bool)

inductive WakeupPc
  | acquire (i : ℕ)
  | test (i : Slot)
  | release (i : Slot)

inductive KillPc
  | acquire (i : ℕ)
  | test (i : Slot)
  | release (i : Slot)
  | found (i : Slot)

inductive ForkPc
  | acquire (i : ℕ)
  | test (i : Slot)
  | release (i : Slot)
  /-- `allocproc` has the slot; a failure is still possible. -/
  | alloc (i : Slot)
  | giveUp (i : Slot)
  | drop (i : Slot)
  /-- Before `acquire(&wait_lock)`. -/
  | lockParent (i : Slot)
  | setParent (i : Slot)
  | unlockParent (i : Slot)
  | lockRun (i : Slot)
  | setRun (i : Slot)
  | unlockRun (i : Slot)

inductive ExitPc
  /-- Before `acquire(&wait_lock)`. -/
  | start
  | reparent (i : ℕ)
  | acquire
  | zombie
  /-- Before `release(&wait_lock)`. -/
  | drop
  /-- After `sched()`. -/
  | dead

inductive WaitPc
  | start
  | scan (i : ℕ) (havekids : Bool)
  | test (i : Slot)
  | release (i : Slot)
  | found (i : Slot)
  /-- Before `release(&wait_lock)`. -/
  | done

/-- A call in progress, or the code of a thread. -/
inductive Frame (L : Type)
  | scheduler (k : SchedulerPc)
  /-- User or kernel code of a process that holds the locks `held`. -/
  | code (held : List L)
  /-- `kerneltrap`. -/
  | trap (held : List L)
  | forkret
  | wakeup (ch : Option Chan) (k : WakeupPc)
  | yield (k : YieldPc)
  /-- `sleep(ch, lk)`, where `none` is `wait_lock`, called by `wait`. The frame of the caller, which
  holds no other lock, is put back when it returns. -/
  | sleep (ch : Chan) (lk : Option L) (k : SleepPc)
  | sched (k : SchedPc)
  | kill (pid : ℤ) (k : KillPc)
  | fork (k : ForkPc)
  | exit (status : ℤ) (k : ExitPc)
  | wait (k : WaitPc)

/-- What a CPU executes. -/
inductive Run (L : Type)
  /-- The stack of a process, or of `scheduler`. -/
  | thread (p : Option Slot) (stack : List (Frame L))
  /-- In the `swtch` of `scheduler`: `c->context` is saved, `p->context` is being loaded. -/
  | loading (p : Slot)
  /-- In the `swtch` of `sched`: `p->context` is saved, `c->context` is being loaded. -/
  | leaving (p : Slot)

/-- `struct cpu`, and the interrupt flag. -/
structure Cpu (L : Type) where
  proc : Option Slot := none
  context : List (Frame L) := []
  noff : ℕ := 0
  intena : Bool := false
  intr : Bool := false
  run : Run L := .thread none [.scheduler .loop]

structure State (C L : Type) where
  cpu : C → Cpu L
  proc : Slot → Proc
  context : Slot → List (Frame L)
  /-- `lk->cpu`, if the lock is taken. -/
  holder : Lock L → Option C
  nextpid : ℤ
  panic : Option Panic

/-- After `userinit`, on every CPU before `scheduler`. -/
def start (C L : Type) : State C L where
  cpu _ := {}
  proc := ProcTable.userinit.proc
  context p := if p = initproc then [.forkret] else []
  holder _ := none
  nextpid := 2
  panic := none

/-! ## Instructions -/

/-- What the next instruction of a CPU does; `st` is the stack that it leaves. -/
inductive Instr (L : Type)
  | goto (st : List (Frame L))
  /-- Write fields of a process. -/
  | set (q : Slot) (x : Proc) (st : List (Frame L))
  | acquire (l : Lock L) (st : List (Frame L))
  | release (l : Lock L) (st : List (Frame L))
  | setIntr (b : Bool) (st : List (Frame L))
  | setIntena (b : Bool) (st : List (Frame L))
  /-- `c->proc = ..`. -/
  | setProc (p : Option Slot) (st : List (Frame L))
  /-- `allocproc`, at a free slot: a new pid, and a context that starts at `forkret`. -/
  | allocproc (q : Slot) (st : List (Frame L))
  /-- `swtch(&c->context, &p->context)`, with what `c->context` becomes. -/
  | load (p : Slot) (st : List (Frame L))
  /-- `swtch(&p->context, &c->context)`. -/
  | leave (p : Slot) (st : List (Frame L))
  | panic (e : Panic)

/-- What the code decides, or what its surroundings answer. -/
inductive Choice (L : Type)
  | go | fail
  | acquire (l : L)
  | release (l : L)
  | intrOn | intrOff
  | wakeup (ch : Chan)
  | sleep (ch : Chan) (l : L)
  | yield | fork | wait
  | exit (status : ℤ)
  | kill (pid : ℤ)
  /-- Return from a trap. -/
  | ret

section Code

variable {C L : Type} [DecidableEq C] [DecidableEq L]

/-- `push_off`. -/
def Cpu.pushOff (x : Cpu L) : Cpu L :=
  { x with intr := false, intena := if x.noff = 0 then x.intr else x.intena, noff := x.noff + 1 }

/-- `pop_off`. -/
def Cpu.popOff (x : Cpu L) : Except Panic (Cpu L) :=
  if x.intr then .error .popOffInterruptible
  else if x.noff < 1 then .error .popOff
  else .ok { x with noff := x.noff - 1, intr := x.noff - 1 = 0 ∧ x.intena = true }

variable (s : State C L) (c : C)

def State.setCpu (x : Cpu L) : State C L := { s with cpu := update s.cpu c x }

/-- Do an instruction of thread `th`. A lock that is taken makes the CPU wait. -/
def perform (th : Option Slot) : Instr L → Option (State C L)
  | .goto st => some (s.setCpu c { s.cpu c with run := .thread th st })
  | .set q x st =>
    some { s.setCpu c { s.cpu c with run := .thread th st } with
      proc := update s.proc q x }
  | .acquire l st =>
    if s.holder l = some c then some { s with panic := some .acquire }
    else if s.holder l = none then
      some { s.setCpu c { (s.cpu c).pushOff with run := .thread th st } with
        holder := update s.holder l (some c) }
    else none
  | .release l st =>
    if s.holder l = some c then
      match (s.cpu c).popOff with
      | .error e => some { s with panic := some e }
      | .ok x =>
        some { s.setCpu c { x with run := .thread th st } with
          holder := update s.holder l none }
    else some { s with panic := some .release }
  | .setIntr b st => some (s.setCpu c { s.cpu c with intr := b, run := .thread th st })
  | .setIntena b st => some (s.setCpu c { s.cpu c with intena := b, run := .thread th st })
  | .setProc p st => some (s.setCpu c { s.cpu c with proc := p, run := .thread th st })
  | .allocproc q st =>
    some { s.setCpu c { s.cpu c with run := .thread th st } with
      proc := update s.proc q { s.proc q with pid := s.nextpid, state := .USED }
      context := update s.context q [.forkret]
      nextpid := int32 (s.nextpid + 1) }
  | .load p st => some (s.setCpu c { s.cpu c with context := st, run := .loading p })
  | .leave p st =>
    some { s.setCpu c { s.cpu c with run := .leaving p } with
      context := update s.context p st }
  | .panic e => some { s with panic := some e }

/-! ## The code -/

/-- Other kernel code takes or releases a lock. -/
def locking (mk : List L → Frame L) (held : List L) (st : List (Frame L)) :
    Choice L → Option (Instr L)
  | .acquire l => if l ∈ held then none else some (.acquire (.other l) (mk (l :: held) :: st))
  | .release l => if l ∈ held then some (.release (.other l) (mk (held.erase l) :: st)) else none
  | .wakeup ch => some (.goto (.wakeup (some ch) (.acquire 0) :: mk held :: st))
  | _ => none

/-- The code of a process. It calls functions of `proc.c` only while it holds no spinlock, `sleep`
and `wakeup` apart. -/
def code (held : List L) (st : List (Frame L)) : Choice L → Option (Instr L)
  | .sleep ch l =>
    if held = [l] then some (.goto (.sleep ch (some l) .acquire :: st)) else none
  | .intrOn => if held = [] then some (.setIntr true (.code held :: st)) else none
  | .intrOff => if held = [] then some (.setIntr false (.code held :: st)) else none
  | .yield => if held = [] then some (.goto (.yield .acquire :: .code held :: st)) else none
  | .fork => if held = [] then some (.goto (.fork (.acquire 0) :: .code held :: st)) else none
  | .wait => if held = [] then some (.goto (.wait .start :: .code held :: st)) else none
  | .kill pid =>
    if held = [] then some (.goto (.kill pid (.acquire 0) :: .code held :: st)) else none
  | .exit status =>
    if held = [] ∧ (s.cpu c).proc ≠ some initproc then
      some (.goto (.exit status .start :: .code held :: st))
    else none      -- panic("init exiting")
  | ch => locking .code held st ch

/-- The code of an interrupt handler. -/
def trap (held : List L) (st : List (Frame L)) : Choice L → Option (Instr L)
  | .yield =>
    if held = [] then
      match (s.cpu c).proc with
      | none => none
      | some p =>
        if (s.proc p).state = .RUNNING then some (.goto (.yield .acquire :: .trap held :: st))
        else none
    else none
  | .ret => if held = [] then some (.setIntr true st) else none
  | ch => locking .trap held st ch

def scheduler (st : List (Frame L)) : SchedulerPc → Instr L
  | .loop => .setIntr true (.scheduler (.acquire 0) :: st)
  | .acquire i =>
    if h : i < NPROC then .acquire (.proc ⟨i, h⟩) (.scheduler (.test ⟨i, h⟩) :: st)
    else .goto (.scheduler .loop :: st)
  | .test i =>
    if (s.proc i).state = .RUNNABLE then
      .set i { s.proc i with state := .RUNNING } (.scheduler (.setProc i) :: st)
    else .goto (.scheduler (.release i) :: st)
  | .setProc i => .setProc (some i) (.scheduler (.swtch i) :: st)
  | .swtch i => .load i (.scheduler (.back i) :: st)
  | .back i => .setProc none (.scheduler (.release i) :: st)
  | .release i => .release (.proc i) (.scheduler (.acquire (i + 1)) :: st)

def wakeup (ch : Option Chan) (st : List (Frame L)) : WakeupPc → Instr L
  | .acquire i =>
    if h : i < NPROC then
      if (s.cpu c).proc = some ⟨i, h⟩ then .goto (.wakeup ch (.acquire (i + 1)) :: st)
      else .acquire (.proc ⟨i, h⟩) (.wakeup ch (.test ⟨i, h⟩) :: st)
    else .goto st
  | .test i => .set i (wakeup1 ch (s.proc i)) (.wakeup ch (.release i) :: st)
  | .release i => .release (.proc i) (.wakeup ch (.acquire (i + 1)) :: st)

def yield (p : Slot) (st : List (Frame L)) : YieldPc → Instr L
  | .acquire => .acquire (.proc p) (.yield .set :: st)
  | .set => .set p { s.proc p with state := .RUNNABLE } (.sched .check :: .yield .release :: st)
  | .release => .release (.proc p) st

/-- The lock that `sleep` is called with. -/
def sleepLock (lk : Option L) : Lock L := lk.elim .wait .other

/-- Where the caller of `sleep` goes on. -/
def sleepReturn (lk : Option L) : Frame L := lk.elim (.wait (.scan 0 false)) fun l => .code [l]

def sleep (p : Slot) (ch : Chan) (lk : Option L) (st : List (Frame L)) : SleepPc → Instr L
  | .acquire => .acquire (.proc p) (.sleep ch lk .drop :: st)
  | .drop => .release (sleepLock lk) (.sleep ch lk .set :: st)
  | .set =>
    .set p { s.proc p with chan := some ch, state := .SLEEPING }
      (.sched .check :: .sleep ch lk .tidy :: st)
  | .tidy => .set p { s.proc p with chan := none } (.sleep ch lk .release :: st)
  | .release => .release (.proc p) (.sleep ch lk .reacquire :: st)
  | .reacquire => .acquire (sleepLock lk) (sleepReturn lk :: st)

def sched (p : Slot) (st : List (Frame L)) : SchedPc → Instr L
  | .check =>
    if s.holder (.proc p) ≠ some c then .panic .schedLock
    else if (s.cpu c).noff ≠ 1 then .panic .schedLocks
    else if (s.proc p).state = .RUNNING then .panic .schedRunning
    else if (s.cpu c).intr then .panic .schedInterruptible
    else .goto (.sched (.swtch (s.cpu c).intena) :: st)
  | .swtch intena => .leave p (.sched (.back intena) :: st)
  | .back intena => .setIntena intena st

def kill (pid : ℤ) (st : List (Frame L)) : KillPc → Instr L
  | .acquire i =>
    if h : i < NPROC then .acquire (.proc ⟨i, h⟩) (.kill pid (.test ⟨i, h⟩) :: st) else .goto st
  | .test i =>
    if (s.proc i).pid = pid then .set i (kill1 (s.proc i)) (.kill pid (.found i) :: st)
    else .goto (.kill pid (.release i) :: st)
  | .release i => .release (.proc i) (.kill pid (.acquire (i + 1)) :: st)
  | .found i => .release (.proc i) st

/-- `fork`, and `allocproc` in it; with `fail` it runs out of memory. -/
def fork (p : Slot) (ch : Choice L) (st : List (Frame L)) : ForkPc → Instr L
  | .acquire i =>
    if h : i < NPROC then .acquire (.proc ⟨i, h⟩) (.fork (.test ⟨i, h⟩) :: st) else .goto st
  | .test i =>
    if (s.proc i).state = .UNUSED then .allocproc i (.fork (.alloc i) :: st)
    else .goto (.fork (.release i) :: st)
  | .release i => .release (.proc i) (.fork (.acquire (i + 1)) :: st)
  | .alloc i =>
    match ch with
    | .fail => .set i freeproc (.fork (.giveUp i) :: st)
    | _ => .goto (.fork (.drop i) :: st)
  | .giveUp i => .release (.proc i) st
  | .drop i => .release (.proc i) (.fork (.lockParent i) :: st)
  | .lockParent i => .acquire .wait (.fork (.setParent i) :: st)
  | .setParent i => .set i { s.proc i with parent := some p } (.fork (.unlockParent i) :: st)
  | .unlockParent i => .release .wait (.fork (.lockRun i) :: st)
  | .lockRun i => .acquire (.proc i) (.fork (.setRun i) :: st)
  | .setRun i => .set i { s.proc i with state := .RUNNABLE } (.fork (.unlockRun i) :: st)
  | .unlockRun i => .release (.proc i) st

def exit (p : Slot) (status : ℤ) (st : List (Frame L)) : ExitPc → Instr L
  | .start => .acquire .wait (.exit status (.reparent 0) :: st)
  | .reparent i =>
    if h : i < NPROC then
      if (s.proc ⟨i, h⟩).parent = some p then
        .set ⟨i, h⟩ { s.proc ⟨i, h⟩ with parent := some initproc }
          (.wakeup (some (.proc initproc)) (.acquire 0) :: .exit status (.reparent (i + 1)) :: st)
      else .goto (.exit status (.reparent (i + 1)) :: st)
    else
      .goto (.wakeup ((s.proc p).parent.map .proc) (.acquire 0) :: .exit status .acquire :: st)
  | .acquire => .acquire (.proc p) (.exit status .zombie :: st)
  | .zombie =>
    .set p { s.proc p with xstate := status, state := .ZOMBIE } (.exit status .drop :: st)
  | .drop => .release .wait (.sched .check :: .exit status .dead :: st)
  | .dead => .panic .zombieExit

/-- `wait`; with `fail` its `copyout` fails. -/
def wait (p : Slot) (ch : Choice L) (st : List (Frame L)) : WaitPc → Instr L
  | .start => .acquire .wait (.wait (.scan 0 false) :: st)
  | .scan i havekids =>
    if h : i < NPROC then
      if (s.proc ⟨i, h⟩).parent = some p then
        .acquire (.proc ⟨i, h⟩) (.wait (.test ⟨i, h⟩) :: st)
      else .goto (.wait (.scan (i + 1) havekids) :: st)
    else if !havekids || (s.proc p).killed then .goto (.wait .done :: st)
    else .goto (.sleep (.proc p) none .acquire :: st)
  | .test i =>
    if (s.proc i).state = .ZOMBIE then
      match ch with
      | .fail => .goto (.wait (.found i) :: st)
      | _ => .set i freeproc (.wait (.found i) :: st)
    else .goto (.wait (.release i) :: st)
  | .release i => .release (.proc i) (.wait (.scan (i + 1) true) :: st)
  | .found i => .release (.proc i) (.wait .done :: st)
  | .done => .release .wait st

/-- A function that begins with `p = myproc()`. -/
def withProc (f : Slot → Instr L) : Instr L :=
  match (s.cpu c).proc with
  | none => .panic .nullProc
  | some p => f p

/-- The next instruction of the frame `f` on the stack `st`. -/
def next (ch : Choice L) (st : List (Frame L)) : Frame L → Option (Instr L)
  | .scheduler k => some (scheduler s st k)
  | .code held => code s c held st ch
  | .trap held => trap s c held st ch
  | .forkret => some (withProc s c fun p => .release (.proc p) (.code [] :: st))
  | .wakeup chan k => some (wakeup s c chan st k)
  | .yield k => some (withProc s c fun p => yield s p st k)
  | .sleep chan lk k => some (withProc s c fun p => sleep s p chan lk st k)
  | .sched k => some (withProc s c fun p => sched s c p st k)
  | .kill pid k => some (kill s pid st k)
  | .fork k => some (withProc s c fun p => fork s p ch st k)
  | .exit status k => some (withProc s c fun p => exit s p status st k)
  | .wait k => some (withProc s c fun p => wait s p ch st k)

inductive Act (C L : Type)
  /-- CPU `c` does its next instruction. -/
  | run (c : C) (ch : Choice L)
  /-- CPU `c` takes an interrupt in the kernel. -/
  | interrupt (c : C)

def step : Act C L → Option (State C L)
  | .run c ch =>
    if s.panic.isSome then none
    else
      match (s.cpu c).run with
      | .thread _ [] => none
      | .thread th (f :: st) => (next s c ch st f).bind (perform s c th)
      | .loading p => some (s.setCpu c { s.cpu c with run := .thread (some p) (s.context p) })
      | .leaving _ => some (s.setCpu c { s.cpu c with run := .thread none (s.cpu c).context })
  | .interrupt c =>
    if s.panic.isSome then none
    else
      match (s.cpu c).run with
      | .thread th st =>
        if (s.cpu c).intr then
          some (s.setCpu c { s.cpu c with intr := false, run := .thread th (.trap [] :: st) })
        else none
      | _ => none

end Code

end TatakOS.Sched
