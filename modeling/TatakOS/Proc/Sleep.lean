import Mathlib.Logic.Function.Basic
import TatakOS.Base.Run
import TatakOS.Proc.System

/-!
# `sleep` and `wakeup`

The waiters hold the spinlock `lk`, test a condition on the data that `lk` protects, and call
`sleep(chan, lk)` while it is false. The wakers hold `lk`, make the condition true and call
`wakeup(chan)` before they release `lk`. A waker is a process, or an interrupt handler that runs
on top of a process, or on a CPU that runs none.

The steps are those between two operations on a lock. `wakeup` visits the processes one by one; the
scheduler releases the `p->lock` that `sleep` took, and takes the one that the sleeper will release.
-/

namespace TatakOS.Sleep

open Function
open ProcTable (ProcState Yield)

/-- Where wakers run: in process `p`, or on a CPU that runs no process. -/
abbrev Ctx (n : ℕ) (ι : Type) := Fin n ⊕ ι

/-- The data that `lk` protects. -/
structure Client (n : ℕ) (ι D A : Type) where
  /-- What the waiters wait for. -/
  cond : D → Bool
  /-- What a waiter does to the data once the condition holds. -/
  take : A → Fin n → D → D
  /-- What a waker does to the data. -/
  give : A → Ctx n ι → D → D
  give_cond : ∀ a c d, cond (give a c d) = true
  /-- Who may become a waker. -/
  mayGive : Ctx n ι → D → Bool

/-- The channel of a sleep: the one of the waiters, or some other one. -/
inductive Chan
  | here
  | other (a : ℕ)
  deriving DecidableEq, Repr

/-- Where a process is. -/
inductive Pc
  /-- The slot has no process that runs. -/
  | dead
  /-- In user space or in code that has nothing to do with `lk`, with interrupts on. -/
  | idle
  /-- A waiter at `acquire(lk)`. -/
  | acquire
  /-- At `while(!condition)`. -/
  | test
  /-- After the loop. -/
  | take
  /-- At `release(lk)`. -/
  | release
  /-- In `sleep`: at `acquire(&p->lock)`. -/
  | sleepLock (k : Chan)
  /-- At `release(lk)`. -/
  | sleepRelease (k : Chan)
  /-- At `p->chan = chan; p->state = SLEEPING`. -/
  | sleepSet (k : Chan)
  /-- In `sched`, before the scheduler releases `p->lock`. -/
  | sleepSched (k : Chan)
  /-- Switched away. -/
  | asleep (k : Chan)
  /-- At `p->chan = 0; release(&p->lock)`. -/
  | sleepTidy (k : Chan)
  /-- At `acquire(lk)`. -/
  | sleepReacquire (k : Chan)
  deriving DecidableEq, Repr

/-- Where a waker is. -/
inductive Wake
  | off
  | acquire
  | give
  /-- In `wakeup`, at slot `j` of the process table. -/
  | scan (j : ℕ)
  | release
  deriving DecidableEq, Repr

structure Thread where
  pc : Pc := .dead
  state : ProcState := .UNUSED
  chan : Option Chan := none
  /-- `p->lock` is held from one step to the next. -/
  lock : Bool := false
  yield : Yield := .none
  deriving DecidableEq, Repr

inductive Holder (n : ℕ) (ι : Type)
  | waiter (p : Fin n)
  | waker (c : Ctx n ι)
  deriving DecidableEq

structure State (n : ℕ) (ι D : Type) where
  th : Fin n → Thread
  wake : Ctx n ι → Wake
  lk : Option (Holder n ι)
  data : D

variable {n : ℕ} {ι D A : Type}

def State.setTh (s : State n ι D) (p : Fin n) (x : Thread) : State n ι D :=
  { s with th := update s.th p x }

def State.setWake [DecidableEq ι] (s : State n ι D) (c : Ctx n ι) (w : Wake) : State n ι D :=
  { s with wake := update s.wake c w }

/-- No process runs, and nobody holds a lock. -/
def init (d : D) : State n ι D where
  th _ := {}
  wake _ := .off
  lk := none
  data := d

/-- What a process decides: what it does next, and whether it gives up waiting. -/
inductive Choice (A : Type)
  | wait
  | sleepOn (a : ℕ)
  | giveUp
  | go (a : A)
  deriving DecidableEq, Repr

/-- No spinlock is held here, so interrupts are on. -/
def Pc.interruptible : Pc → Bool
  | .idle | .sleepReacquire _ => true
  | _ => false

variable [DecidableEq ι]

/-- The next step of process `p`, outside `yield` and outside an interrupt. -/
def exec (C : Client n ι D A) (s : State n ι D) (p : Fin n) (a : Choice A) :
    Option (State n ι D) :=
  let x := s.th p
  match x.pc with
  | .dead | .asleep _ => none
  | .idle =>
    match a with
    | .wait => some (s.setTh p { x with pc := .acquire })
    | .sleepOn k => some (s.setTh p { x with pc := .sleepLock (.other k) })
    | _ => none
  | .acquire =>
    if s.lk = none then some { s.setTh p { x with pc := .test } with lk := some (.waiter p) }
    else none
  | .test =>
    if C.cond s.data then some (s.setTh p { x with pc := .take })
    else
      match a with
      | .giveUp => some (s.setTh p { x with pc := .release })
      | _ => some (s.setTh p { x with pc := .sleepLock .here })
  | .take =>
    match a with
    | .go a => some { s.setTh p { x with pc := .release } with data := C.take a p s.data }
    | _ => none
  | .release => some { s.setTh p { x with pc := .idle } with lk := none }
  | .sleepLock k =>
    if x.lock then none else some (s.setTh p { x with lock := true, pc := .sleepRelease k })
  | .sleepRelease .here => some { s.setTh p { x with pc := .sleepSet .here } with lk := none }
  | .sleepRelease (.other k) => some (s.setTh p { x with pc := .sleepSet (.other k) })
  | .sleepSet k =>
    some (s.setTh p { x with chan := some k, state := .SLEEPING, pc := .sleepSched k })
  | .sleepSched k => some (s.setTh p { x with lock := false, pc := .asleep k })
  | .sleepTidy k =>
    some (s.setTh p { x with chan := none, lock := false, pc := .sleepReacquire k })
  | .sleepReacquire .here =>
    if s.lk = none then some { s.setTh p { x with pc := .test } with lk := some (.waiter p) }
    else none
  | .sleepReacquire (.other _) => some (s.setTh p { x with pc := .idle })

/-- A waker may start here: interrupts are on, or there is no process to interrupt. -/
def mayStart (s : State n ι D) : Ctx n ι → Bool
  | .inl p => (s.th p).pc.interruptible && (s.th p).yield = .none
  | .inr _ => true

/-- What `wakeup(chan)` does to one process. -/
def wakeup1 (x : Thread) : Thread :=
  if x.state = .SLEEPING ∧ x.chan = some .here then { x with state := .RUNNABLE } else x

/-- The next step of the waker in `c`. -/
def wakeStep (C : Client n ι D A) (s : State n ι D) (c : Ctx n ι) (a : A) :
    Option (State n ι D) :=
  match s.wake c with
  | .off => if mayStart s c ∧ C.mayGive c s.data then some (s.setWake c .acquire) else none
  | .acquire =>
    if s.lk = none then some { s.setWake c .give with lk := some (.waker c) } else none
  | .give => some { s.setWake c (.scan 0) with data := C.give a c s.data }
  | .scan j =>
    if h : j < n then
      if .inl ⟨j, h⟩ = c then some (s.setWake c (.scan (j + 1)))
      else if (s.th ⟨j, h⟩).lock then none
      else some ((s.setTh ⟨j, h⟩ (wakeup1 (s.th ⟨j, h⟩))).setWake c (.scan (j + 1)))
    else some (s.setWake c .release)
  | .release => some { s.setWake c .off with lk := none }

/-- Where a process goes on after `scheduler` has switched to it. -/
def Pc.resume : Pc → Pc
  | .asleep k => .sleepTidy k
  | k => k

inductive Act (n : ℕ) (ι A : Type)
  /-- Process `p` takes its next step. -/
  | exec (p : Fin n) (a : Choice A)
  /-- The waker in `c` takes its next step. -/
  | wake (c : Ctx n ι) (a : A)
  /-- Some CPU's `scheduler` switches to `p`. -/
  | schedule (p : Fin n)
  /-- A timer interrupt makes `p` call `yield`. -/
  | preempt (p : Fin n)
  /-- A `kill`, or a `wakeup` on a channel that happens to be the same. -/
  | rouse (p : Fin n)
  /-- `fork` makes slot `p` a process. -/
  | spawn (p : Fin n)
  | exit (p : Fin n)
  /-- `wait` frees the slot of the zombie `p`. -/
  | reap (p : Fin n)

def step (C : Client n ι D A) (s : State n ι D) : Act n ι A → Option (State n ι D)
  | .exec p a =>
    let x := s.th p
    match x.yield with
    | .none => if s.wake (.inl p) = .off then exec C s p a else none
    | .sched => some (s.setTh p { x with lock := false, yield := .off })
    | .off => none
    | .back => some (s.setTh p { x with lock := false, yield := .none })
  | .wake c a => wakeStep C s c a
  | .schedule p =>
    let x := s.th p
    if x.lock = false ∧ x.state = .RUNNABLE then
      if x.yield = .off then
        some (s.setTh p { x with lock := true, state := .RUNNING, yield := .back })
      else some (s.setTh p { x with lock := true, state := .RUNNING, pc := x.pc.resume })
    else none
  | .preempt p =>
    let x := s.th p
    if x.lock = false ∧ x.yield = .none ∧ x.pc.interruptible ∧ s.wake (.inl p) = .off then
      some (s.setTh p { x with lock := true, state := .RUNNABLE, yield := .sched })
    else none
  | .rouse p =>
    let x := s.th p
    if x.lock = false ∧ x.state = .SLEEPING then
      some (s.setTh p { x with state := .RUNNABLE })
    else none
  | .spawn p =>
    let x := s.th p
    if x.lock = false ∧ x.state = .UNUSED then
      some (s.setTh p { x with state := .RUNNABLE, pc := .idle, yield := .off })
    else none
  | .exit p =>
    let x := s.th p
    if x.lock = false ∧ x.yield = .none ∧ x.pc = .idle ∧ s.wake (.inl p) = .off then
      some (s.setTh p { x with state := .ZOMBIE, pc := .dead })
    else none
  | .reap p =>
    let x := s.th p
    if x.lock = false ∧ x.state = .ZOMBIE then some (s.setTh p { x with state := .UNUSED })
    else none

/-! ## The invariant -/

/-- `p->lock` is held here. -/
def Pc.holdsLock : Pc → Bool
  | .sleepRelease _ | .sleepSet _ | .sleepSched _ | .sleepTidy _ => true
  | _ => false

/-- `lk` is held here. -/
def Pc.holdsLk : Pc → Bool
  | .test | .take | .release | .sleepLock .here | .sleepRelease .here => true
  | _ => false

def Wake.holdsLk : Wake → Bool
  | .give | .scan _ | .release => true
  | _ => false

/-- What `p->chan` is. -/
def Pc.sleeping : Pc → Option Chan
  | .sleepSched k | .asleep k | .sleepTidy k => some k
  | _ => none

/-- The states a process may have at a program counter, outside `yield`. -/
def Pc.allows : Pc → ProcState → Bool
  | .dead, x => x = .UNUSED ∨ x = .ZOMBIE
  | .asleep _, x => x = .SLEEPING ∨ x = .RUNNABLE
  | .sleepSched _, x => x = .SLEEPING
  | _, x => x = .RUNNING

def Thread.allows (x : Thread) : Bool :=
  match x.yield with
  | .none => x.pc.allows x.state
  | .sched | .off => x.state = .RUNNABLE
  | .back => x.state = .RUNNING

/-- The lock, the state and the channel of a process fit its program counter. -/
structure Thread.Ok (x : Thread) : Prop where
  lock : x.lock = (x.pc.holdsLock || (x.yield = .sched || x.yield = .back))
  yield : x.yield ≠ .none → x.pc.interruptible = true
  state : x.allows = true
  chan : x.chan = x.pc.sleeping

/-- The process has released `lk` in order to sleep, and has not been woken. -/
def Thread.Committed (x : Thread) : Prop :=
  x.pc = .sleepSet .here ∨ x.pc = .sleepSched .here ∨ x.pc = .asleep .here ∧ x.state = .SLEEPING

/-- A process that is not `SLEEPING` is committed only by its program counter. -/
theorem Thread.Committed.of_state {x y : Thread} (h : y.Committed) (hpc : y.pc = x.pc)
    (hs : y.state ≠ .SLEEPING) : x.Committed := by
  rcases h with h | h | ⟨-, h⟩
  · exact .inl (hpc ▸ h)
  · exact .inr (.inl (hpc ▸ h))
  · exact absurd h hs

structure Inv (C : Client n ι D A) (s : State n ι D) : Prop where
  thread : ∀ p, (s.th p).Ok
  waiter : ∀ p, s.lk = some (.waiter p) ↔ (s.th p).pc.holdsLk = true
  waker : ∀ c, s.lk = some (.waker c) ↔ (s.wake c).holdsLk = true
  interrupt : ∀ p, s.wake (.inl p) ≠ .off →
    (s.th p).pc.interruptible = true ∧ (s.th p).yield = .none
  taking : ∀ p, (s.th p).pc = .take → C.cond s.data = true
  sleeping : ∀ p, (s.th p).pc = .sleepLock .here ∨ (s.th p).pc = .sleepRelease .here →
    C.cond s.data = false
  /-- A sleeper that could go on has not been reached by the `wakeup` in progress. -/
  committed : ∀ p, (s.th p).Committed → C.cond s.data = true → ∃ c j, s.wake c = .scan j ∧ j ≤ p.val

variable {C : Client n ι D A} {s t : State n ι D} {p : Fin n} {x : Thread}

section Frame

omit [DecidableEq ι]

theorem inv_init (C : Client n ι D A) (d : D) : Inv C (init d : State n ι D) where
  thread p := by constructor <;> simp [init, Pc.holdsLock, Thread.allows, Pc.allows, Pc.sleeping]
  waiter p := by simp [init, Pc.holdsLk]
  waker c := by simp [init, Wake.holdsLk]
  interrupt p h := by simp [init] at h
  taking p h := by simp [init] at h
  sleeping p h := by simp [init] at h
  committed p h := by simp [init, Thread.Committed] at h

/-! ## Steps of a process -/

variable {lk : Option (Holder n ι)}

section

variable (hi : Inv C s)
include hi

section

variable (hx : x.Ok) (htake : x.pc = .take → C.cond s.data = true)
  (hint : s.wake (.inl p) ≠ .off → x.pc.interruptible = true ∧ x.yield = .none)
  (hsleep : x.pc = .sleepLock .here ∨ x.pc = .sleepRelease .here → C.cond s.data = false)
include hx htake hint hsleep

/-- A step that changes process `p` and perhaps the holder of `lk`. -/
theorem Inv.setTh (hp : lk = some (.waiter p) ↔ x.pc.holdsLk = true)
    (hlk : ∀ h, h ≠ .waiter p → (lk = some h ↔ s.lk = some h))
    (hcom : x.Committed → C.cond s.data = true → (s.th p).Committed) :
    Inv C { s.setTh p x with lk := lk } := by
  constructor
  all_goals intro r; simp only [State.setTh]
  · rcases eq_or_ne r p with rfl | e
    · simpa using hx
    · simpa [e] using hi.thread r
  · rcases eq_or_ne r p with rfl | e
    · simpa using hp
    · simpa [e, hlk (.waiter r) (by simpa using e)] using hi.waiter r
  · rw [hlk _ (by simp)]
    exact hi.waker r
  · rcases eq_or_ne r p with rfl | e
    · simpa using hint
    · simpa [e] using hi.interrupt r
  · rcases eq_or_ne r p with rfl | e
    · simpa using htake
    · simpa [e] using hi.taking r
  · rcases eq_or_ne r p with rfl | e
    · simpa using hsleep
    · simpa [e] using hi.sleeping r
  · rcases eq_or_ne r p with rfl | e
    · simpa using fun h hc => hi.committed r (hcom h hc) hc
    · simpa [e] using hi.committed r

theorem Inv.setTh_only (hlk : x.pc.holdsLk = (s.th p).pc.holdsLk)
    (hcom : x.Committed → (s.th p).Committed) : Inv C (s.setTh p x) :=
  hi.setTh hx htake hint hsleep (hlk ▸ hi.waiter p) (fun _ _ => Iff.rfl) fun h _ => hcom h

end

/-- Only the holder of `lk` changes the data, and then no sleeper waits for a true condition. -/
theorem Inv.not_committed (hlk : s.lk = some (.waiter p)) (hc : C.cond s.data = true) (r : Fin n) :
    ¬ (s.th r).Committed := by
  intro h
  obtain ⟨c, j, hw, -⟩ := hi.committed r h hc
  have := (hi.waker c).mpr (by rw [hw]; rfl)
  simp [hlk] at this

section Goto

variable {k : Pc} (hoff : s.wake (.inl p) = .off) (hy : (s.th p).yield = .none)
  (hlock : k.holdsLock = (s.th p).pc.holdsLock) (hst : ∀ x, k.allows x = (s.th p).pc.allows x)
  (hch : k.sleeping = (s.th p).pc.sleeping)
include hoff hy hlock hst hch

/-- A move of the program counter that keeps what `Inv` reads of it. -/
theorem Inv.goto (hlk : k.holdsLk = (s.th p).pc.holdsLk) (htake : k = .take → C.cond s.data = true)
    (hsleep : k = .sleepLock .here ∨ k = .sleepRelease .here → C.cond s.data = false)
    (hcom : k ≠ .sleepSet .here ∧ k ≠ .sleepSched .here ∧ k ≠ .asleep .here) :
    Inv C (s.setTh p { s.th p with pc := k }) := by
  obtain ⟨h1, h2, h3, h4⟩ := hi.thread p
  refine hi.setTh_only ?_ htake (fun h => absurd hoff h) hsleep hlk ?_
  · constructor <;> simp_all [Thread.allows]
  · simp [Thread.Committed, hcom]

theorem Inv.goto_lk (hlk : s.lk = none ∧ lk = some (.waiter p) ∧ k.holdsLk = true ∨
      s.lk = some (.waiter p) ∧ lk = none ∧ k.holdsLk = false)
    (htake : k ≠ .take) (hsleep : k ≠ .sleepLock .here ∧ k ≠ .sleepRelease .here)
    (hcom : k ≠ .sleepSched .here ∧ k ≠ .asleep .here)
    (hset : k = .sleepSet .here → C.cond s.data = false) :
    Inv C { s.setTh p { s.th p with pc := k } with lk := lk } := by
  obtain ⟨h1, h2, h3, h4⟩ := hi.thread p
  refine hi.setTh ?_ (fun h => absurd h htake) (fun h => absurd hoff h) ?_ ?_ ?_ ?_
  · constructor <;> simp_all [Thread.allows]
  · simp [hsleep]
  · rcases hlk with ⟨-, rfl, hk⟩ | ⟨-, rfl, hk⟩ <;> simp [hk]
  · intro h hne
    rcases hlk with ⟨e, rfl, -⟩ | ⟨e, rfl, -⟩ <;> simp [e, hne.symm]
  · simp only [Thread.Committed, hcom, false_and, or_false]
    intro h hc
    simp [hset h] at hc

end Goto

theorem Inv.taken (hk : (s.th p).pc = .take) (hy : (s.th p).yield = .none)
    (hoff : s.wake (.inl p) = .off) (d : D) :
    Inv C { s.setTh p { s.th p with pc := .release } with data := d } := by
  have hlk : s.lk = some (.waiter p) := (hi.waiter p).mpr (by rw [hk]; rfl)
  have hrel : Inv C (s.setTh p { s.th p with pc := .release }) := by
    apply hi.goto hoff hy <;> simp [hk, Pc.holdsLock, Pc.holdsLk, Pc.allows, Pc.sleeping]
  -- the data is read where `lk` is held, and only `p` holds it
  have hpc : ∀ r k, ((s.setTh p { s.th p with pc := .release }).th r).pc = k → k.holdsLk = true →
      k = .release := by
    rintro r _ rfl hl
    obtain rfl : p = r := by simpa [State.setTh, hlk] using (hrel.waiter r).mpr hl
    simp [State.setTh]
  refine { hrel with taking := fun r h => ?_, sleeping := fun r h => ?_, committed := fun r h => ?_ }
  · cases hpc r _ h rfl
  · rcases h with h | h <;> cases hpc r _ h rfl
  · exact absurd h (hrel.not_committed hlk (hi.taking p hk) r)

end

end Frame

section Step

attribute [local simp] Pc.holdsLock Pc.holdsLk Thread.allows Pc.allows Pc.sleeping
  Pc.interruptible Thread.Committed

omit [DecidableEq ι] in
theorem inv_exec {a : Choice A} (hi : Inv C s) (hy : (s.th p).yield = .none)
    (hoff : s.wake (.inl p) = .off) (h : exec C s p a = some t) : Inv C t := by
  have hok := hi.thread p
  have hlk := hi.waiter p
  cases hk : (s.th p).pc with simp only [exec, hk] at h
  | dead | asleep k => cases h
  | idle =>
    split at h
    · cases h; apply hi.goto hoff hy <;> simp [hk]
    · cases h; apply hi.goto hoff hy <;> simp [hk]
    · cases h
  | acquire =>
    split_ifs at h with hn
    cases h
    apply hi.goto_lk hoff hy <;> simp [hk, hn]
  | test =>
    split_ifs at h with hc
    · cases h; apply hi.goto hoff hy <;> simp [hk, hc]
    · split at h
      · cases h; apply hi.goto hoff hy <;> simp [hk]
      · cases h; apply hi.goto hoff hy <;> simp_all
  | take =>
    split at h
    · cases h; exact hi.taken hk hy hoff _
    · cases h
  | release =>
    cases h
    rw [hk] at hlk
    apply hi.goto_lk hoff hy <;> simp_all
  | sleepLock k =>
    split_ifs at h with hl
    cases h
    refine hi.setTh_only ?_ ?_ (fun h => absurd hoff h) ?_ ?_ ?_
    · obtain ⟨h1, h2, h3, h4⟩ := hok
      constructor <;> simp_all
    · simp
    · simpa using fun e => hi.sleeping p (.inl (by rw [hk, e]))
    · cases k <;> simp [hk]
    · simp
  | sleepRelease k =>
    cases k with
    | here =>
      cases h
      rw [hk] at hlk
      have hc := hi.sleeping p (.inr hk)
      apply hi.goto_lk hoff hy <;> simp_all
    | other a =>
      cases h
      apply hi.goto hoff hy <;> simp [hk]
  | sleepSet k | sleepTidy k | sleepSched k =>
    cases h
    refine hi.setTh_only ?_ ?_ (fun h => absurd hoff h) ?_ ?_ ?_
    · obtain ⟨h1, h2, h3, h4⟩ := hok
      constructor <;> simp_all
    all_goals simp +contextual [hk]
  | sleepReacquire k =>
    cases k with
    | here =>
      simp only at h
      split_ifs at h with hn
      cases h
      apply hi.goto_lk hoff hy <;> simp [hk, hn]
    | other a =>
      cases h
      apply hi.goto hoff hy <;> simp [hk]

/-! ## Steps of a waker -/

variable {c : Ctx n ι} {w : Wake}

/-- A step that changes the waker in `c` and perhaps the holder of `lk`. -/
theorem Inv.setWake (hi : Inv C s) (lk : Option (Holder n ι))
    (hw : lk = some (.waker c) ↔ w.holdsLk = true)
    (hlk : ∀ h, h ≠ .waker c → (lk = some h ↔ s.lk = some h))
    (hint : ∀ p, c = .inl p → w ≠ .off → (s.th p).pc.interruptible = true ∧ (s.th p).yield = .none)
    (hcom : ∀ r, (s.th r).Committed → C.cond s.data = true →
      ∃ c' j, (s.setWake c w).wake c' = .scan j ∧ j ≤ r.val) :
    Inv C { s.setWake c w with lk := lk } where
  thread := hi.thread
  waiter p := by
    show lk = some (.waiter p) ↔ _
    rw [hlk _ (by simp)]
    exact hi.waiter p
  waker c' := by
    show lk = some (.waker c') ↔ (update s.wake c w c').holdsLk = true
    rcases eq_or_ne c' c with rfl | e
    · simpa using hw
    · rw [hlk _ (by simpa using e), update_of_ne e]
      exact hi.waker c'
  interrupt p h := by
    by_cases e : c = .inl p
    · subst e
      exact hint p rfl (by simpa [State.setWake] using h)
    · exact hi.interrupt p (by simpa [State.setWake, Ne.symm e] using h)
  taking := hi.taking
  sleeping := hi.sleeping
  committed := hcom

omit [DecidableEq ι] in
/-- The holder of `lk` is the only waker that can be in its scan. -/
theorem Inv.scan_unique (hi : Inv C s) {c' : Ctx n ι} {j : ℕ} (hlk : s.lk = some (.waker c))
    (h : s.wake c' = .scan j) : c' = c := by
  have := (hi.waker c').mpr (by rw [h]; rfl)
  rw [hlk] at this
  simpa using this.symm

omit [DecidableEq ι] in
/-- The `wakeup` that is responsible for a sleeper is the one that holds `lk`. -/
theorem Inv.scan_of_committed (hi : Inv C s) (hlk : s.lk = some (.waker c)) {r : Fin n}
    (h : (s.th r).Committed) (hc : C.cond s.data = true) : ∃ j, s.wake c = .scan j ∧ j ≤ r.val := by
  obtain ⟨c', j, hw, hj⟩ := hi.committed r h hc
  obtain rfl := hi.scan_unique hlk hw
  exact ⟨j, hw, hj⟩

theorem Inv.give (hi : Inv C s) (hw : s.wake c = .give) (a : A) :
    Inv C { s.setWake c (.scan 0) with data := C.give a c s.data } := by
  have hlk : s.lk = some (.waker c) := (hi.waker c).mpr (by rw [hw]; rfl)
  have hscan : ∀ r : Fin n, ∃ c' j, (s.setWake c (.scan 0)).wake c' = .scan j ∧ j ≤ r.val :=
    fun r => ⟨c, 0, by simp [State.setWake], Nat.zero_le _⟩
  have hset : Inv C (s.setWake c (.scan 0)) := by
    refine hi.setWake s.lk ?_ (fun _ _ => Iff.rfl) ?_ fun r _ _ => hscan r
    · simpa [Wake.holdsLk] using hlk
    · rintro p rfl -
      exact hi.interrupt p (by simp [hw])
  refine { hset with
    taking := fun _ _ => C.give_cond a c s.data
    sleeping := fun p h => ?_
    committed := fun r _ _ => hscan r }
  have := (hi.waiter p).mpr (by rcases h with h | h <;> rw [show (s.th p).pc = _ from h] <;> rfl)
  simp [hlk] at this

theorem wakeup1_ok (h : x.Ok) (hl : x.lock = false) :
    (wakeup1 x).Ok ∧ (wakeup1 x).pc = x.pc ∧ (wakeup1 x).yield = x.yield ∧
      ¬ (wakeup1 x).Committed := by
  obtain ⟨h1, h2, h3, h4⟩ := h
  obtain ⟨k, st, ch, l, y⟩ := x
  unfold wakeup1
  split_ifs with e
  · cases y <;> cases k <;> simp_all
    constructor <;> simp_all
  · refine ⟨⟨h1, h2, h3, h4⟩, rfl, rfl, ?_⟩
    cases y <;> cases k <;> simp_all
    exact fun h h' => e h' h

/-- The scan goes on to `w`, which nobody who sleeps is behind of. -/
theorem Inv.scan_to (hi : Inv C s) {j : ℕ} (hw : s.wake c = .scan j) (hl : w.holdsLk = true)
    (hcom : ∀ r : Fin n, (s.th r).Committed → j ≤ r.val → ∃ i, w = .scan i ∧ i ≤ r.val) :
    Inv C (s.setWake c w) := by
  have hlk : s.lk = some (.waker c) := (hi.waker c).mpr (by rw [hw]; rfl)
  refine hi.setWake s.lk ?_ (fun _ _ => Iff.rfl) ?_ ?_
  · simpa [hl] using hlk
  · rintro p rfl -
    exact hi.interrupt p (by simp [hw])
  · intro r h hc
    obtain ⟨i, hi', hle⟩ := hi.scan_of_committed hlk h hc
    obtain rfl : i = j := by simpa [hw] using hi'.symm
    obtain ⟨i', rfl, hle'⟩ := hcom r h hle
    exact ⟨c, i', by simp [State.setWake], hle'⟩

/-- The scan leaves slot `j` behind: nobody there sleeps on. -/
theorem Inv.scan_next (hi : Inv C s) {j : ℕ} (hw : s.wake c = .scan j)
    (hj : ∀ r : Fin n, r.val = j → ¬ (s.th r).Committed) :
    Inv C (s.setWake c (.scan (j + 1))) :=
  hi.scan_to hw rfl fun r h hle =>
    ⟨j + 1, rfl, Nat.lt_of_le_of_ne hle fun e => hj r e.symm h⟩

theorem inv_wakeStep {a : A} (hi : Inv C s) (h : wakeStep C s c a = some t) : Inv C t := by
  cases hw : s.wake c with simp only [wakeStep, hw] at h
  | off =>
    split_ifs at h with hs
    cases h
    refine hi.setWake s.lk ?_ (fun _ _ => Iff.rfl) ?_ ?_
    · rw [hi.waker c, hw]
      simp [Wake.holdsLk]
    · rintro p rfl -
      simpa [mayStart] using hs.1
    · intro r h hc
      obtain ⟨c', j, hw', hj⟩ := hi.committed r h hc
      refine ⟨c', j, ?_, hj⟩
      rw [← hw']
      exact update_of_ne (by rintro rfl; simp [hw] at hw') _ _
  | acquire =>
    split_ifs at h with hn
    cases h
    refine hi.setWake _ (by simp [Wake.holdsLk]) ?_ ?_ ?_
    · intro h hne
      simp [hn, hne.symm]
    · rintro p rfl -
      exact hi.interrupt p (by simp [hw])
    · intro r h hc
      obtain ⟨c', j, hw', -⟩ := hi.committed r h hc
      have := (hi.waker c').mpr (by rw [hw']; rfl)
      simp [hn] at this
  | give =>
    cases h
    exact hi.give hw a
  | scan j =>
    split_ifs at h with hj hself hl
    · cases h
      -- `wakeup` skips `myproc()`, which runs and does not sleep
      refine hi.scan_next hw fun r hr hcom => ?_
      obtain rfl : r = ⟨j, hj⟩ := Fin.ext hr
      have := (hi.interrupt ⟨j, hj⟩ (by rw [hself, hw]; simp)).1
      rcases hcom with e | e | ⟨e, -⟩ <;> simp [e] at this
    · cases h
      obtain ⟨hok, hpc, hy, hnot⟩ := wakeup1_ok (hi.thread ⟨j, hj⟩) (by simpa using hl)
      have hi' : Inv C (s.setTh ⟨j, hj⟩ (wakeup1 (s.th ⟨j, hj⟩))) := by
        refine hi.setTh_only hok ?_ ?_ ?_ (by rw [hpc]) (fun h => absurd h hnot)
        · rw [hpc]; exact hi.taking _
        · rw [hpc, hy]; exact hi.interrupt _
        · rw [hpc]; exact hi.sleeping _
      refine hi'.scan_next hw fun r hr => ?_
      obtain rfl : r = ⟨j, hj⟩ := Fin.ext hr
      simpa [State.setTh] using hnot
    · cases h
      exact hi.scan_to hw rfl fun r _ hle => absurd r.isLt (by omega)
  | release =>
    cases h
    have hlk : s.lk = some (.waker c) := (hi.waker c).mpr (by rw [hw]; rfl)
    refine hi.setWake _ (by simp [Wake.holdsLk]) ?_ (by simp) ?_
    · intro h hne
      simp [hlk, hne.symm]
    · intro r h hc
      obtain ⟨i, hi', -⟩ := hi.scan_of_committed hlk h hc
      simp [hw] at hi'

/-! ## The scheduler and the rest of the kernel -/

section

variable (h : x.Ok)
include h

theorem Thread.Ok.sched (hy : x.yield = .sched) :
    Thread.Ok { x with lock := false, yield := .off } := by
  obtain ⟨h1, h2, h3, h4⟩ := h
  obtain ⟨k, st, ch, l, y⟩ := x
  constructor <;> cases k <;> simp_all

theorem Thread.Ok.back (hy : x.yield = .back) :
    Thread.Ok { x with lock := false, yield := .none } := by
  obtain ⟨h1, h2, h3, h4⟩ := h
  obtain ⟨k, st, ch, l, y⟩ := x
  constructor <;> cases k <;> simp_all

theorem Thread.Ok.schedule_yield (hl : x.lock = false) (hy : x.yield = .off) :
    Thread.Ok { x with lock := true, state := .RUNNING, yield := .back } := by
  obtain ⟨h1, h2, h3, h4⟩ := h
  obtain ⟨k, st, ch, l, y⟩ := x
  constructor <;> cases k <;> simp_all

/-- `scheduler` only finds sleepers that were woken, and processes in `yield`. -/
theorem Thread.Ok.schedule (hl : x.lock = false) (hr : x.state = .RUNNABLE) (hy : x.yield ≠ .off) :
    x.yield = .none ∧ (∃ k, x.pc = .asleep k) ∧
      Thread.Ok { x with lock := true, state := .RUNNING, pc := x.pc.resume } := by
  obtain ⟨h1, h2, h3, h4⟩ := h
  obtain ⟨k, st, ch, l, y⟩ := x
  cases y <;> cases k <;> simp_all
  constructor <;> simp_all [Pc.resume]

theorem Thread.Ok.preempt (hk : x.pc.interruptible = true) :
    Thread.Ok { x with lock := true, state := .RUNNABLE, yield := .sched } := by
  obtain ⟨h1, h2, h3, h4⟩ := h
  obtain ⟨k, st, ch, l, y⟩ := x
  constructor <;> cases k <;> simp_all

theorem Thread.Ok.rouse (hl : x.lock = false) (hs : x.state = .SLEEPING) :
    Thread.Ok { x with state := .RUNNABLE } := by
  obtain ⟨h1, h2, h3, h4⟩ := h
  obtain ⟨k, st, ch, l, y⟩ := x
  cases y <;> cases k <;> simp_all
  constructor <;> simp_all

theorem Thread.Ok.spawn (hu : x.state = .UNUSED) :
    x.pc = .dead ∧ Thread.Ok { x with state := .RUNNABLE, pc := .idle, yield := .off } := by
  obtain ⟨h1, h2, h3, h4⟩ := h
  obtain ⟨k, st, ch, l, y⟩ := x
  cases y <;> cases k <;> simp_all
  constructor <;> simp_all

theorem Thread.Ok.exit (hy : x.yield = .none) (hk : x.pc = .idle) :
    Thread.Ok { x with state := .ZOMBIE, pc := .dead } := by
  obtain ⟨h1, h2, h3, h4⟩ := h
  obtain ⟨k, st, ch, l, y⟩ := x
  constructor <;> simp_all

theorem Thread.Ok.reap (hz : x.state = .ZOMBIE) :
    x.pc = .dead ∧ Thread.Ok { x with state := .UNUSED } := by
  obtain ⟨h1, h2, h3, h4⟩ := h
  obtain ⟨k, st, ch, l, y⟩ := x
  cases y <;> cases k <;> simp_all
  constructor <;> simp_all

end

theorem inv_step {a : Act n ι A} (hi : Inv C s) (h : step C s a = some t) : Inv C t := by
  cases a with simp only [step] at h
  | wake c a => exact inv_wakeStep hi h
  | exec p a =>
    cases hy : (s.th p).yield with
    | none =>
      simp only [hy] at h
      split_ifs at h with hoff
      exact inv_exec hi hy hoff h
    | off => simp [hy] at h
    | sched =>
      simp only [hy] at h
      cases h
      refine hi.setTh_only ((hi.thread p).sched hy) (hi.taking p) ?_ (hi.sleeping p) rfl id
      exact fun h => by simpa [hy] using (hi.interrupt p h).2
    | back =>
      simp only [hy] at h
      cases h
      refine hi.setTh_only ((hi.thread p).back hy) (hi.taking p) ?_ (hi.sleeping p) rfl id
      exact fun h => by simpa [hy] using (hi.interrupt p h).2
  | schedule p =>
    split_ifs at h with hc hy
    · cases h
      refine hi.setTh_only ((hi.thread p).schedule_yield hc.1 hy) (hi.taking p) ?_
        (hi.sleeping p) rfl fun h => h.of_state rfl (by simp)
      exact fun h => by simpa [hy] using (hi.interrupt p h).2
    · cases h
      obtain ⟨hy', ⟨k, hk⟩, hok⟩ := (hi.thread p).schedule hc.1 hc.2 hy
      refine hi.setTh_only hok ?_ (fun h => ?_) ?_ ?_ ?_
      · simp [hk, Pc.resume]
      · simpa [hk] using (hi.interrupt p h).1
      all_goals simp [hk, Pc.resume]
  | preempt p =>
    split_ifs at h with hc
    cases h
    exact hi.setTh_only ((hi.thread p).preempt hc.2.2.1) (hi.taking p)
      (fun h => absurd hc.2.2.2 h) (hi.sleeping p) rfl fun h => h.of_state rfl (by simp)
  | rouse p =>
    split_ifs at h with hc
    cases h
    exact hi.setTh_only ((hi.thread p).rouse hc.1 hc.2) (hi.taking p) (hi.interrupt p)
      (hi.sleeping p) rfl fun h => h.of_state rfl (by simp)
  | spawn p =>
    split_ifs at h with hc
    cases h
    obtain ⟨hk, hok⟩ := (hi.thread p).spawn hc.2
    refine hi.setTh_only hok (by simp) ?_ (by simp) (by simp [hk]) (by simp)
    exact fun h => by simpa [hk] using (hi.interrupt p h).1
  | exit p =>
    split_ifs at h with hc
    cases h
    exact hi.setTh_only ((hi.thread p).exit hc.2.1 hc.2.2.1) (by simp)
      (fun h => absurd hc.2.2.2 h) (by simp) (by simp [hc.2.2.1]) (by simp)
  | reap p =>
    split_ifs at h with hc
    cases h
    obtain ⟨hk, hok⟩ := (hi.thread p).reap hc.2
    refine hi.setTh_only hok (hi.taking p) (hi.interrupt p) (hi.sleeping p) rfl ?_
    simp [hk]

end Step

/-! ## What changes the data -/

/-- The data changes where a waiter takes and where a waker gives. -/
inductive DataMove (C : Client n ι D A) (s t : State n ι D) : Prop
  | same (hd : t.data = s.data) (hw : t.wake = s.wake)
  | take (p : Fin n) (a : A) (hk : (s.th p).pc = .take) (hd : t.data = C.take a p s.data)
    (hw : t.wake = s.wake)
  | start (c : Ctx n ι) (hm : C.mayGive c s.data = true) (hd : t.data = s.data)
    (hw : t.wake = update s.wake c .acquire)
  | acquired (c : Ctx n ι) (h : s.wake c = .acquire) (hd : t.data = s.data)
    (hw : t.wake = update s.wake c .give)
  | give (c : Ctx n ι) (a : A) (h : s.wake c = .give) (hd : t.data = C.give a c s.data)
    (hw : t.wake = update s.wake c (.scan 0))
  | given (c : Ctx n ι) (w : Wake) (h : w ≠ .acquire ∧ w ≠ .give) (hd : t.data = s.data)
    (hw : t.wake = update s.wake c w)

theorem exec_dataMove {a : Choice A} (h : exec C s p a = some t) : DataMove C s t := by
  cases hk : (s.th p).pc with
  | dead | asleep k => simp [exec, hk] at h
  | idle | test =>
    simp only [exec, hk] at h
    repeat' split at h
    all_goals cases h
    all_goals exact .same rfl rfl
  | take =>
    simp only [exec, hk] at h
    split at h
    · cases h; exact .take p _ hk rfl rfl
    · cases h
  | sleepRelease k | sleepReacquire k =>
    cases k <;> simp only [exec, hk] at h <;> (try split_ifs at h) <;> cases h <;>
      exact .same rfl rfl
  | _ =>
    simp only [exec, hk] at h
    try split_ifs at h
    cases h
    exact .same rfl rfl

theorem wakeStep_dataMove {c : Ctx n ι} {a : A} (h : wakeStep C s c a = some t) :
    DataMove C s t := by
  cases hw : s.wake c with simp only [wakeStep, hw] at h
  | off =>
    split_ifs at h with hs
    cases h
    exact .start c hs.2 rfl rfl
  | acquire =>
    split_ifs at h with hn
    cases h
    exact .acquired c hw rfl rfl
  | give =>
    cases h
    exact .give c a hw rfl rfl
  | scan j =>
    split_ifs at h with hj hself hl <;> cases h
    all_goals exact .given c _ (by simp) rfl rfl
  | release =>
    cases h
    exact .given c _ (by simp) rfl rfl

theorem step_dataMove {a : Act n ι A} (h : step C s a = some t) : DataMove C s t := by
  cases a with
  | wake c a => exact wakeStep_dataMove h
  | exec p a =>
    simp only [step] at h
    cases hy : (s.th p).yield with
    | none =>
      simp only [hy] at h
      split_ifs at h with hoff
      exact exec_dataMove h
    | off => simp [hy] at h
    | sched | back =>
      simp only [hy] at h
      cases h
      exact .same rfl rfl
  | _ =>
    simp only [step] at h
    split_ifs at h
    all_goals cases h
    all_goals exact .same rfl rfl

/-! ## The result -/

/-- A process that sleeps on the channel has released `lk` and has not been woken. -/
theorem Thread.Ok.committed_of_sleeping (h : x.Ok) (hs : x.state = .SLEEPING)
    (hch : x.chan = some .here) : x.Committed := by
  obtain ⟨h1, h2, h3, h4⟩ := h
  obtain ⟨k, st, ch, l, y⟩ := x
  cases y <;> cases k <;>
    simp_all [Thread.allows, Pc.allows, Pc.sleeping, Thread.Committed, Pc.interruptible]

theorem inv_reachable {d : D} {as : List (Act n ι A)} (h : run (step C) (init d) as = some s) :
    Inv C s :=
  run_induct (I := Inv C) (fun _ _ _ hs ht => inv_step hs ht) (inv_init C d) h

omit [DecidableEq ι] in
/-- Where `lk` is free, nobody sleeps on the channel while the condition holds. -/
theorem Inv.not_sleeping_of_cond (hi : Inv C s) (hlk : s.lk = none)
    (hs : (s.th p).state = .SLEEPING) (hch : (s.th p).chan = some .here) :
    C.cond s.data = false := by
  by_contra hc
  have hcom := (hi.thread p).committed_of_sleeping hs hch
  obtain ⟨c, j, hw, -⟩ := hi.committed p hcom (by simpa using hc)
  have := (hi.waker c).mpr (by rw [hw]; rfl)
  simp [hlk] at this

end TatakOS.Sleep
