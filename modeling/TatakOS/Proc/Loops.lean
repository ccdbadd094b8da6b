import TatakOS.Console.System
import TatakOS.Pipe.System
import TatakOS.Proc.Killed

/-!
# The wait loops that look at `p->killed`

`piperead`, `pipewrite`, `wait`, `consoleread` and `sys_sleep` with all that wakes them, running
together: any number of pipes, `fork` and `exit`, `consoleintr` and `clockintr`. An interrupt handler
is a thread that makes no other calls. Thread `init` is `initproc`.
-/

namespace TatakOS.Loops

open Monitor (Op Client Watchful KillsOutside State Act step init)
open Function

inductive Lock
  | pipe (i : ℕ)
  | wait
  | cons
  | ticks
  deriving DecidableEq

inductive Chan (n : ℕ)
  | pipe (i : ℕ) (ch : Pipes.Chan)
  /-- The address of a `struct proc`. -/
  | proc (p : Fin n)
  /-- `&cons.r`. -/
  | cons
  /-- `&ticks`. -/
  | ticks
  deriving DecidableEq

inductive Slot
  | unused | live | zombie
  deriving DecidableEq, Repr

structure Data (n : ℕ) where
  pipe : ℕ → Pipes.Pipe
  slot : Fin n → Slot
  parent : Fin n → Option (Fin n)
  cons : Console.Cons
  ticks : UInt32

inductive Place (n : ℕ)
  | pipe (i : ℕ) (l : Pipes.Place)
  | cons (l : Console.Place)
  /-- `wait` looks at slot `j`. -/
  | waitScan (j : ℕ) (havekids : Bool)
  | waitRet
  /-- `fork`, at `np->parent = p`. -/
  | forkLink (np : Fin n)
  | forkRet
  /-- `reparent` looks at slot `j`. -/
  | reparent (j : ℕ)
  /-- At `wakeup(initproc)`. -/
  | reparentWake (j : ℕ)
  /-- `exit`, at `wakeup(p->parent)`. -/
  | exitWake
  | exitZombie
  | exitRet
  /-- `sys_sleep`, at `ticks0 = ticks`. -/
  | sleepBegin (k : UInt32)
  /-- At `while(ticks - ticks0 < n)`. -/
  | sleepTest (k ticks0 : UInt32)
  | sleepRet
  /-- `clockintr`. -/
  | clock
  | clockWake
  | clockRet
  deriving DecidableEq

variable {n : ℕ}

def Place.lock : Place n → Lock
  | .pipe i _ => .pipe i
  | .cons _ => .cons
  | .sleepBegin _ | .sleepTest _ _ | .sleepRet | .clock | .clockWake | .clockRet => .ticks
  | _ => .wait

def Chan.lock : Chan n → Lock
  | .pipe i _ => .pipe i
  | .proc _ => .wait
  | .cons => .cons
  | .ticks => .ticks

/-- A process is live when it makes a call; an interrupt may come at any time. -/
def entry (t : Fin n) (d : Data n) : Place n → Bool
  | .pipe _ l => l.entry && d.slot t = .live
  | .cons (.intr _) | .clock => true
  | .cons l => l.entry && d.slot t = .live
  | .waitScan 0 false | .reparent 0 | .sleepBegin _ => d.slot t = .live
  | .forkLink np => d.slot t = .live && d.slot np = .unused
  | _ => false

/-- The code of `pipe.c` on pipe `i`. -/
def onPipe (i : ℕ) (d : Data n) :
    Op Pipes.Chan Pipes.Pipe Pipes.Place → Op (Chan n) (Data n) (Place n)
  | .go l p => .go (.pipe i l) { d with pipe := update d.pipe i p }
  | .sleep ch l => .sleep (.pipe i ch) (.pipe i l)
  | .wakeup ch l => .wakeup (.pipe i ch) (.pipe i l)
  | .ret => .ret

def onCons (d : Data n) : Op Unit Console.Cons Console.Place → Op (Chan n) (Data n) (Place n)
  | .go l x => .go (.cons l) { d with cons := x }
  | .sleep _ l => .sleep .cons (.cons l)
  | .wakeup _ l => .wakeup .cons (.cons l)
  | .ret => .ret

/-- The next operation of `wait` at slot `j`. -/
def waitNext (copied : Bool) (t : Fin n) (j : ℕ) (havekids : Bool) (d : Data n) (killed : Bool) :
    Op (Chan n) (Data n) (Place n) :=
  if h : j < n then
    if d.parent ⟨j, h⟩ = some t then
      if d.slot ⟨j, h⟩ = .zombie then
        if copied then
          .go .waitRet { d with slot := update d.slot ⟨j, h⟩ .unused,
                                parent := update d.parent ⟨j, h⟩ none }
        else .go .waitRet d
      else .go (.waitScan (j + 1) true) d
    else .go (.waitScan (j + 1) havekids) d
  else if !havekids || killed then .go .waitRet d
  else .sleep (.proc t) (.waitScan 0 false)

/-- The next operation. `a` is a byte that is copied, or `none` if a copy fails. -/
def next (initproc : Fin n) (a : Option UInt8) (t : Fin n) (l : Place n) (d : Data n)
    (killed : Bool) : Op (Chan n) (Data n) (Place n) :=
  match l with
  | .pipe i l => onPipe i d (Pipes.next a l (d.pipe i) killed)
  | .cons l => onCons d (Console.next a.isSome l d.cons killed)
  | .waitScan j havekids => waitNext a.isSome t j havekids d killed
  | .forkLink np => .go .forkRet { d with slot := update d.slot np .live,
                                          parent := update d.parent np (some t) }
  | .reparent j =>
    if h : j < n then
      if d.parent ⟨j, h⟩ = some t then
        .go (.reparentWake j) { d with parent := update d.parent ⟨j, h⟩ (some initproc) }
      else .go (.reparent (j + 1)) d
    else .go .exitWake d
  | .reparentWake j => .wakeup (.proc initproc) (.reparent (j + 1))
  | .exitWake =>
    match d.parent t with
    | some p => .wakeup (.proc p) .exitZombie
    | none => .go .exitZombie d
  | .exitZombie => .go .exitRet { d with slot := update d.slot t .zombie }
  | .sleepBegin k => .go (.sleepTest k d.ticks) d
  | .sleepTest k ticks0 =>
    if d.ticks - ticks0 < k then
      if killed then .go .sleepRet d else .sleep .ticks (.sleepTest k ticks0)
    else .go .sleepRet d
  | .clock => .go .clockWake { d with ticks := d.ticks + 1 }
  | .clockWake => .wakeup .ticks .clockRet
  | .waitRet | .forkRet | .exitRet | .sleepRet | .clockRet => .ret

/-- Who sleeps on `ticks` looks again after every tick. -/
def waits : Chan n → Data n → Bool
  | .pipe i ch, d => Pipes.waits ch (d.pipe i)
  | .proc p, d => ∀ q, d.parent q = some p → d.slot q ≠ .zombie
  | .cons, d => d.cons.r = d.cons.w
  | .ticks, _ => true

def client (initproc : Fin n) : Client n Lock (Chan n) (Data n) (Place n) (Option UInt8) where
  lock := Place.lock
  entry := entry
  next := next initproc
  chanLock := Chan.lock
  waits := waits

/-- Where the test of `p->killed` lies behind: in `pipewrite`, `wakeup(&pi->nread)` comes between
the test and `sleep`. -/
def Place.Clear : Place n → Prop
  | .pipe _ (.writeSleep _ _) => True
  | _ => False

variable {d d' : Data n} {l' : Place n}

theorem onPipe_go {i : ℕ}
    {op : Op Pipes.Chan Pipes.Pipe Pipes.Place} (h : onPipe i d op = .go l' d') :
    ∃ l p, op = .go l p ∧ l' = .pipe i l := by
  cases op with
  | go l p =>
    cases h
    exact ⟨l, p, rfl, rfl⟩
  | _ => cases h

theorem onCons_go {op : Op Unit Console.Cons Console.Place}
    (h : onCons d op = .go l' d') : ∃ l, l' = .cons l := by
  cases op with
  | go l x =>
    cases h
    exact ⟨l, rfl⟩
  | _ => cases h

variable {a : Option UInt8} {k : Bool}

/-- `pipewrite` gets to its `sleep` through a `wakeup` only. -/
theorem pipe_go_not_clear {l l' : Pipes.Place} {d d' : Pipes.Pipe}
    (h : Pipes.next a l d k = .go l' d') (i : ℕ) : ¬ (Place.pipe i l' : Place n).Clear := by
  cases l with
  | readTest m | readCopy m m' | writeTest m m' =>
    simp only [Pipes.next] at h
    split_ifs at h <;> cases h <;> exact id
  | writeByte m m' => cases a <;> cases h <;> exact id
  | closeSet w =>
    cases h
    exact id
  | _ => cases h

theorem pipe_sleep_clear {l l' : Pipes.Place} {d : Pipes.Pipe}
    {ch : Pipes.Chan} (h : Pipes.next a l d k = .sleep ch l') (i : ℕ) :
    ¬ (Place.pipe i l' : Place n).Clear ∧ (k = false ∨ (Place.pipe i l : Place n).Clear) := by
  cases l with
  | readTest m =>
    simp only [Pipes.next] at h
    split_ifs at h with he hk
    cases h
    exact ⟨id, .inl (by simpa using hk)⟩
  | writeSleep m m' =>
    cases h
    exact ⟨id, .inr trivial⟩
  | readCopy m m' | writeTest m m' =>
    simp only [Pipes.next] at h
    split_ifs at h
  | writeByte m m' => cases a <;> cases h
  | _ => cases h

theorem pipe_wakeup_clear {l l' : Pipes.Place} {d : Pipes.Pipe}
    {ch : Pipes.Chan} (h : Pipes.next a l d k = .wakeup ch l') (i : ℕ)
    (hc : (Place.pipe i l' : Place n).Clear) : k = false := by
  cases l with
  | writeTest m m' =>
    simp only [Pipes.next] at h
    split_ifs at h with hm hk hf
    exact (by simpa using hk : d.readopen = true ∧ k = false).2
  | readTest m | readCopy m m' =>
    simp only [Pipes.next] at h
    split_ifs at h
  | readWake m | writeWake m | closeWake w =>
    cases h
    exact absurd hc id
  | writeByte m m' => cases a <;> cases h
  | _ => cases h

theorem cons_sleep {a : Bool} {l l' : Console.Place} {d : Console.Cons} {ch : Unit}
    (h : Console.next a l d k = .sleep ch l') : k = false := by
  cases l with
  | readTest m m' =>
    simp only [Console.next] at h
    split_ifs at h with hm he hk
    simpa using hk
  | readTake m m' =>
    simp only [Console.next] at h
    split_ifs at h
  | intr c =>
    simp only [Console.next] at h
    split at h <;> cases h
  | _ => cases h

variable {t : Fin n}

theorem waitNext_go {a havekids k : Bool} {j : ℕ}
    (h : waitNext a t j havekids d k = .go l' d') : ¬ l'.Clear := by
  unfold waitNext at h
  split_ifs at h <;> cases h <;> exact id

theorem waitNext_sleep {a havekids k : Bool} {j : ℕ} {d : Data n} {ch : Chan n}
    (h : waitNext a t j havekids d k = .sleep ch l') : ¬ l'.Clear ∧ k = false := by
  unfold waitNext at h
  split_ifs at h with h1 h2 h3 h4 h5
  cases h
  refine ⟨id, ?_⟩
  exact (by simpa using h5 : havekids = true ∧ k = false).2

theorem waitNext_not_wakeup {a havekids k : Bool} {j : ℕ} {d : Data n} {ch : Chan n} :
    waitNext a t j havekids d k ≠ .wakeup ch l' := by
  unfold waitNext
  split_ifs <;> nofun

theorem watchful (initproc : Fin n) : Watchful (client initproc) Place.Clear where
  entry t d l h := by
    cases l with
    | pipe i l => cases l <;> first | exact id | simp [client, entry, Pipes.Place.entry] at h
    | _ => exact id
  go a t l d k l' d' h := by
    intro hc
    cases l with
    | pipe i l =>
      obtain ⟨l2, p, hop, rfl⟩ := onPipe_go h
      exact absurd hc (pipe_go_not_clear hop i)
    | cons l =>
      obtain ⟨l2, rfl⟩ := onCons_go h
      exact absurd hc id
    | waitScan j havekids => exact absurd hc (waitNext_go h)
    | reparent j | sleepTest m m' =>
      simp only [client, next] at h
      split_ifs at h <;> cases h <;> exact absurd hc id
    | exitWake =>
      simp only [client, next] at h
      split at h <;> cases h
      exact absurd hc id
    | forkLink np | exitZombie | sleepBegin m | clock =>
      cases h
      exact absurd hc id
    | _ => cases h
  sleep a t l d k ch l' h := by
    cases l with simp only [client, next] at h
    | pipe i l =>
      cases hop : Pipes.next a l (d.pipe i) k with
      | sleep ch2 l2 =>
        rw [hop] at h
        cases h
        exact pipe_sleep_clear hop i
      | _ =>
        rw [hop] at h
        cases h
    | cons l =>
      cases hop : Console.next a.isSome l d.cons k with
      | sleep ch2 l2 =>
        rw [hop] at h
        cases h
        exact ⟨id, .inl (cons_sleep hop)⟩
      | _ =>
        rw [hop] at h
        cases h
    | waitScan j havekids =>
      obtain ⟨h1, h2⟩ := waitNext_sleep h
      exact ⟨h1, .inl h2⟩
    | sleepTest m m' =>
      split_ifs at h with h1 h2
      cases h
      exact ⟨id, .inl (by simpa using h2)⟩
    | reparent j =>
      split_ifs at h
    | exitWake =>
      split at h <;> cases h
    | _ => cases h
  wakeup a t l d k ch l' h := by
    intro hc
    cases l with simp only [client, next] at h
    | pipe i l =>
      cases hop : Pipes.next a l (d.pipe i) k with
      | wakeup ch2 l2 =>
        rw [hop] at h
        cases h
        exact .inl (pipe_wakeup_clear hop i hc)
      | _ =>
        rw [hop] at h
        cases h
    | cons l =>
      cases hop : Console.next a.isSome l d.cons k with
      | wakeup ch2 l2 =>
        rw [hop] at h
        cases h
        exact absurd hc id
      | _ =>
        rw [hop] at h
        cases h
    | waitScan j havekids => exact absurd h waitNext_not_wakeup
    | reparent j | sleepTest m m' =>
      split_ifs at h
    | exitWake =>
      split at h <;> cases h
      exact absurd hc id
    | reparentWake j | clockWake =>
      cases h
      exact absurd hc id
    | _ => cases h

/-- In a run in which no `kill` hits a process between its test of `p->killed` and its sleep, no
process that was killed sleeps in one of the loops. -/
theorem killed_not_sleeping {initproc : Fin n} {d : Data n}
    {as : List (Act n (Place n) (Option UInt8))} {s : State n Lock (Chan n) (Data n) (Place n)}
    (hok : RunMeets (step (client initproc)) (KillsOutside Place.Clear) (init d) as)
    (hrun : run (step (client initproc)) (init d) as = some s) (t : Fin n)
    (hk : (s.th t).killed = true) : (s.th t).state ≠ .SLEEPING := by
  have hi : Monitor.AwakeInv Place.Clear s :=
    run_induct_of_meets (fun _ _ _ hi hG h => Monitor.awake_step (watchful initproc) hi hG h)
      (Monitor.awake_init _ d) hok hrun
  exact hi.sleeping t hk

/-- One live process and a pipe. -/
def oneProcess : Data 1 where
  pipe _ := Pipes.pipealloc fun _ => 0
  slot _ := .live
  parent _ := none
  cons := ⟨fun _ => 0, 0, 0, 0⟩
  ticks := 0

/-- A reader sleeps on the empty pipe and is killed. -/
def killSleeper : List (Act 1 (Place 1) (Option UInt8)) :=
  let p : Fin 1 := ⟨0, Nat.one_pos⟩
  .call p (.pipe p (.readTest 1)) :: List.replicate 5 (.exec p none) ++ [.kill p]

theorem killed_not_sleeping_sleeper :
    ∃ s, run (step (client 0)) (init oneProcess) killSleeper = some s ∧
      (s.th 0).killed = true ∧ (s.th 0).state ≠ .SLEEPING := by
  have hok : RunMeets (step (client 0)) (KillsOutside Place.Clear) (init oneProcess)
      killSleeper := by
    refine .cons trivial rfl (.cons trivial rfl (.cons trivial rfl (.cons trivial rfl ?_)))
    exact .cons trivial rfl (.cons trivial rfl (.cons id rfl trivial))
  exact ⟨_, rfl, rfl, killed_not_sleeping hok rfl 0 rfl⟩

/-- A reader finds `p->killed` 0, is killed, and goes to sleep. -/
def killBeforeSleep : List (Act 1 (Place 1) (Option UInt8)) :=
  let p : Fin 1 := ⟨0, Nat.one_pos⟩
  [.call p (.pipe p (.readTest 1)), .exec p none, .exec p none, .kill p, .exec p none, .exec p none,
    .exec p none]

theorem killed_reader_sleeps :
    ∃ s, run (step (client 0)) (init oneProcess) killBeforeSleep = some s ∧
      (s.th 0).killed = true ∧ (s.th 0).state = .SLEEPING ∧
      (s.th 0).pc = .asleep (.pipe 0 .nread) (.pipe 0 (.readTest 1)) :=
  ⟨_, rfl, rfl, rfl, rfl⟩

end TatakOS.Loops
