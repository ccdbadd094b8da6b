import Mathlib.Tactic.Common
import TatakOS.Proc.System

/-!
# What one step can do

`step_move`: every step of the process table is one of the moves listed in `Move`, each with the
state it needs and the state it leaves. `Goto` lists the moves of a program counter that change
nothing else. The invariants are proved by cases on these two lists and never unfold `step`.
-/

namespace TatakOS.ProcTable

variable {s t : Kernel} {p q np : Slot} {c : Choice} {k k' : Pc}

theorem allocproc_eq (s : Kernel) (np : Slot) : allocproc s np =
      ((allocpid s).2.setProc np { s.proc np with pid := s.nextpid, state := .USED }).setPc np
        .newborn := rfl

/-! ## The moves -/

/-- The moves of `p`'s program counter that change nothing else. -/
inductive Goto (s : Kernel) (p : Slot) : Pc → Pc → Prop
  | fork : Goto s p .user (.forkScan 0)
  | kill (pid : ℤ) : Goto s p .user (.killScan pid 0)
  | sleepOn (a : ℕ) : Goto s p .user (.sleepLock (.other a))
  | wakeup (a : ℕ) : Goto s p .user (.wakeScan a 0)
  | forkNext (i : Slot) (hl : s.lock i = false) (h : (s.proc i).state ≠ .UNUSED) :
    Goto s p (.forkScan i) (.forkScan (i + 1))
  | forkFull (i : ℕ) (h : NPROC ≤ i) : Goto s p (.forkScan i) .user
  | reparentNext (status : ℤ) (i : Slot) (h : (s.proc i).parent ≠ some p) :
    Goto s p (.exitReparent status i) (.exitReparent status (i + 1))
  | reparentEnd (status : ℤ) (i : ℕ) (h : NPROC ≤ i) :
    Goto s p (.exitReparent status i) (.exitWakeParent status ((s.proc p).parent.map .proc) 0)
  | wakeInitSelf (status : ℤ) (i : ℕ) :
    Goto s p (.exitWakeInit status i p) (.exitWakeInit status i (p + 1))
  | wakeInitEnd (status : ℤ) (i j : ℕ) (h : NPROC ≤ j) :
    Goto s p (.exitWakeInit status i j) (.exitReparent status (i + 1))
  | wakeParentSelf (status : ℤ) (ch : Option Chan) :
    Goto s p (.exitWakeParent status ch p) (.exitWakeParent status ch (p + 1))
  | wakeParentEnd (status : ℤ) (ch : Option Chan) (j : ℕ) (h : NPROC ≤ j) :
    Goto s p (.exitWakeParent status ch j) (.exitZombie status)
  | waitOther (i : Slot) (b : Bool) (h : (s.proc i).parent ≠ some p) :
    Goto s p (.waitScan i b) (.waitScan (i + 1) b)
  | waitChild (i : Slot) (b : Bool) (h : (s.proc i).parent = some p) (hl : s.lock i = false)
    (hz : (s.proc i).state ≠ .ZOMBIE) : Goto s p (.waitScan i b) (.waitScan (i + 1) true)
  | waitNone (i : ℕ) (b : Bool) (h : NPROC ≤ i) : Goto s p (.waitScan i b) .waitReturn
  | waitSleep (i : ℕ) (b : Bool) (h : NPROC ≤ i) (hb : b = true) (hk : (s.proc p).killed = false) :
    Goto s p (.waitScan i b) (.sleepLock .wait)
  | sleepRelease (a : ℕ) : Goto s p (.sleepRelease (.other a)) (.sleepSet (.other a))
  | sleepReacquire (a : ℕ) : Goto s p (.sleepReacquire (.other a)) .user
  | killNext (pid : ℤ) (i : Slot) (h : (s.proc i).pid ≠ pid) :
    Goto s p (.killScan pid i) (.killScan pid (i + 1))
  | killNone (pid : ℤ) (i : ℕ) (h : NPROC ≤ i) : Goto s p (.killScan pid i) .user
  | wakeSelf (a : ℕ) : Goto s p (.wakeScan a p) (.wakeScan a (p + 1))
  | wakeEnd (a j : ℕ) (h : NPROC ≤ j) : Goto s p (.wakeScan a j) .user

/-- The moves that take `wait_lock`. -/
inductive TakeWait (p : Slot) : Pc → Pc → Prop
  | exit (status : ℤ) (h : p ≠ initproc) : TakeWait p .user (.exitReparent status 0)
  | wait : TakeWait p .user (.waitScan 0 false)
  | sleep : TakeWait p (.sleepReacquire .wait) (.waitScan 0 false)

/-- The moves that release `wait_lock`. -/
inductive DropWait : Pc → Pc → Prop
  | exit : DropWait .exitRelease .exitSched
  | wait : DropWait .waitReturn .user
  | sleep : DropWait (.sleepRelease .wait) (.sleepSet .wait)

/-- The moves that only release the process's own lock. -/
inductive Unlock : Pc → Pc → Prop
  | forkret : Unlock .forkret .user
  | exit : Unlock .exitSched .dead
  | sleep (k : Sleep) : Unlock (.sleepSched k) (.asleep k)

/-- The steps of a `wakeup(ch)` at slot `j`. -/
inductive WakeAt (j : Slot) : Option Chan → Pc → Pc → Prop
  | init (status : ℤ) (i : ℕ) : WakeAt j (some (.proc initproc)) (.exitWakeInit status i j)
      (.exitWakeInit status i (j + 1))
  | parent (status : ℤ) (ch : Option Chan) :
    WakeAt j ch (.exitWakeParent status ch j) (.exitWakeParent status ch (j + 1))
  | other (a : ℕ) : WakeAt j (some (.addr a)) (.wakeScan a j) (.wakeScan a (j + 1))

inductive Move (s : Kernel) : Kernel → Prop
  | goto (p : Slot) (k' : Pc) (hy : s.yield p = .none) (h : Goto s p (s.pc p) k') :
    Move s (s.setPc p k')
  | takeWait (p : Slot) (k' : Pc) (hy : s.yield p = .none) (hw : s.waitLock = none)
    (h : TakeWait p (s.pc p) k') : Move s ((s.setWaitLock (some p)).setPc p k')
  | dropWait (p : Slot) (k' : Pc) (hy : s.yield p = .none) (h : DropWait (s.pc p) k') :
    Move s ((s.setWaitLock none).setPc p k')
  | unlock (p : Slot) (k' : Pc) (hy : s.yield p = .none) (h : Unlock (s.pc p) k') :
    Move s ((s.setLock p false).setPc p k')
  | sleepLock (p : Slot) (k : Sleep) (hy : s.yield p = .none) (hk : s.pc p = .sleepLock k)
    (hl : s.lock p = false) : Move s ((s.setLock p true).setPc p (.sleepRelease k))
  | alloc (p np : Slot) (hy : s.yield p = .none) (hk : s.pc p = .forkScan np)
    (hl : s.lock np = false) (hu : (s.proc np).state = .UNUSED) :
    Move s (((allocproc s np).setPc p (.forkLink np)).record (.forked p np s.nextpid))
  | allocFails (p np : Slot) (hy : s.yield p = .none) (hk : s.pc p = .forkScan np)
    (hl : s.lock np = false) (hu : (s.proc np).state = .UNUSED) :
    Move s ((allocprocFails s np).setPc p .user)
  | forkLink (p np : Slot) (hy : s.yield p = .none) (hk : s.pc p = .forkLink np)
    (hw : s.waitLock = none) :
    Move s ((s.setProc np { s.proc np with parent := some p }).setPc p (.forkRun np))
  | forkRun (p np : Slot) (hy : s.yield p = .none) (hk : s.pc p = .forkRun np)
    (hl : s.lock np = false) :
    Move s ((s.setProc np { s.proc np with state := .RUNNABLE }).setPc p .user)
  | reparent (p pp : Slot) (status : ℤ) (hy : s.yield p = .none)
    (hk : s.pc p = .exitReparent status pp) (h : (s.proc pp).parent = some p) :
    Move s ((s.setProc pp { s.proc pp with parent := some initproc }).setPc p
      (.exitWakeInit status pp 0))
  | wakeup (p j : Slot) (ch : Option Chan) (k' : Pc) (hy : s.yield p = .none) (hj : j ≠ p)
    (hl : s.lock j = false) (h : WakeAt j ch (s.pc p) k') :
    Move s ((s.setProc j (wakeup1 ch (s.proc j))).setPc p k')
  | zombie (p : Slot) (status : ℤ) (hy : s.yield p = .none) (hk : s.pc p = .exitZombie status)
    (hl : s.lock p = false) :
    Move s ((((s.setLock p true).setProc p
      { s.proc p with xstate := status, state := .ZOMBIE }).setPc p .exitRelease).record
        (.exited p (s.proc p).pid status))
  | reap (p np : Slot) (b : Bool) (hy : s.yield p = .none) (hk : s.pc p = .waitScan np b)
    (h : (s.proc np).parent = some p) (hl : s.lock np = false) (hz : (s.proc np).state = .ZOMBIE) :
    Move s (((s.setProc np freeproc).setPc p .waitReturn).record
      (.reaped p np (s.proc np).pid (s.proc np).xstate))
  | copyoutFailed (p np : Slot) (b : Bool) (hy : s.yield p = .none)
    (hk : s.pc p = .waitScan np b) (h : (s.proc np).parent = some p) (hl : s.lock np = false)
    (hz : (s.proc np).state = .ZOMBIE) :
    Move s ((s.setPc p .waitReturn).record (.copyoutFailed p np))
  | sleepSet (p : Slot) (k : Sleep) (hy : s.yield p = .none) (hk : s.pc p = .sleepSet k) :
    Move s ((s.setProc p { s.proc p with chan := some (k.chan p), state := .SLEEPING }).setPc p
      (.sleepSched k))
  | sleepTidy (p : Slot) (k : Sleep) (hy : s.yield p = .none) (hk : s.pc p = .sleepTidy k) :
    Move s (((s.setProc p { s.proc p with chan := none }).setLock p false).setPc p
      (.sleepReacquire k))
  | kill (p q : Slot) (pid : ℤ) (hy : s.yield p = .none) (hk : s.pc p = .killScan pid q)
    (hl : s.lock q = false) (h : (s.proc q).pid = pid) :
    Move s (((s.setProc q (kill1 (s.proc q))).setPc p .user).record (.killed p q pid))
  | yieldSched (p : Slot) (hy : s.yield p = .sched) :
    Move s ((s.setLock p false).setYield p .off)
  | yieldBack (p : Slot) (hy : s.yield p = .back) : Move s ((s.setLock p false).setYield p .none)
  | preempt (p : Slot) (hy : s.yield p = .none) (hk : (s.pc p).interruptible = true)
    (hl : s.lock p = false) :
    Move s (((s.setLock p true).setProc p { s.proc p with state := .RUNNABLE }).setYield p .sched)
  | scheduleYield (p : Slot) (hy : s.yield p = .off) (hl : s.lock p = false)
    (hr : (s.proc p).state = .RUNNABLE) :
    Move s (((s.setLock p true).setProc p { s.proc p with state := .RUNNING }).setYield p .back)
  | schedule (p : Slot) (hy : s.yield p ≠ .off) (hl : s.lock p = false)
    (hr : (s.proc p).state = .RUNNABLE) :
    Move s (((s.setLock p true).setProc p { s.proc p with state := .RUNNING }).setPc p
      (s.pc p).resume)

section

variable (hy : s.yield p = .none)
include hy

theorem userStep_move (hk : s.pc p = .user) (h : userStep s p c = some t) : Move s t := by
  cases c with
  | fork => cases h; exact .goto p _ hy (hk ▸ .fork)
  | exit status =>
    simp only [userStep] at h
    split_ifs at h with hi hw
    cases h
    exact .takeWait p _ hy hw (hk ▸ .exit status hi)
  | wait =>
    simp only [userStep] at h
    split_ifs at h with hw
    cases h
    exact .takeWait p _ hy hw (hk ▸ .wait)
  | kill pid => cases h; exact .goto p _ hy (hk ▸ .kill pid)
  | sleepOn a => cases h; exact .goto p _ hy (hk ▸ .sleepOn a)
  | wakeup a => cases h; exact .goto p _ hy (hk ▸ .wakeup a)
  | go => cases h
  | fail => cases h

variable {i : ℕ}

theorem forkScanStep_move (hk : s.pc p = .forkScan i) (h : forkScanStep s p i c = some t) :
    Move s t := by
  simp only [forkScanStep] at h
  split_ifs at h with hi hl hu hc
  · cases h; exact .allocFails p ⟨i, hi⟩ hy hk (by simpa using hl) hu
  · cases h; exact .alloc p ⟨i, hi⟩ hy hk (by simpa using hl) hu
  · cases h; exact .goto p _ hy (hk ▸ .forkNext ⟨i, hi⟩ (by simpa using hl) hu)
  · cases h; exact .goto p _ hy (hk ▸ .forkFull i (by omega))

theorem reparentStep_move {status : ℤ} (hk : s.pc p = .exitReparent status i) :
    Move s (reparentStep s p status i) := by
  simp only [reparentStep]
  split_ifs with hi hp
  · exact .reparent p ⟨i, hi⟩ status hy hk hp
  · exact .goto p _ hy (hk ▸ .reparentNext status ⟨i, hi⟩ hp)
  · exact .goto p _ hy (hk ▸ .reparentEnd status i (by omega))

theorem waitScanStep_move {b : Bool} (hk : s.pc p = .waitScan i b)
    (h : waitScanStep s p i b c = some t) : Move s t := by
  simp only [waitScanStep] at h
  split_ifs at h with hi hp hl hz hc hn
  · cases h; exact .copyoutFailed p ⟨i, hi⟩ b hy hk hp (by simpa using hl) hz
  · cases h; exact .reap p ⟨i, hi⟩ b hy hk hp (by simpa using hl) hz
  · cases h; exact .goto p _ hy (hk ▸ .waitChild ⟨i, hi⟩ b hp (by simpa using hl) hz)
  · cases h; exact .goto p _ hy (hk ▸ .waitOther ⟨i, hi⟩ b hp)
  · cases h; exact .goto p _ hy (hk ▸ .waitNone i b (by omega))
  · simp only [Bool.or_eq_true, Bool.not_eq_eq_eq_not, Bool.not_true, not_or,
      Bool.not_eq_false, Bool.not_eq_true] at hn
    cases h; exact .goto p _ hy (hk ▸ .waitSleep i b (by omega) hn.1 hn.2)

theorem killScanStep_move {pid : ℤ} (hk : s.pc p = .killScan pid i)
    (h : killScanStep s p pid i = some t) : Move s t := by
  simp only [killScanStep] at h
  split_ifs at h with hi hl hp
  · cases h; exact .kill p ⟨i, hi⟩ pid hy hk (by simpa using hl) hp
  · cases h; exact .goto p _ hy (hk ▸ .killNext pid ⟨i, hi⟩ hp)
  · cases h; exact .goto p _ hy (hk ▸ .killNone pid i (by omega))

theorem wakeupStep_move {ch : Option Chan} {j : Slot} (hself : j = p → Goto s p (s.pc p) k')
    (hwake : WakeAt j ch (s.pc p) k') (h : wakeupStep s p ch j k' = some t) : Move s t := by
  simp only [wakeupStep] at h
  split_ifs at h with hj hl
  · cases h; exact .goto p _ hy (hself hj)
  · cases h; exact .wakeup p j ch k' hy hj (by simpa using hl) hwake

theorem exec_move (h : exec s p c = some t) : Move s t := by
  cases hk : s.pc p with simp only [exec, hk] at h
  | dead | newborn | asleep => cases h
  | user => exact userStep_move hy hk h
  | forkScan i => exact forkScanStep_move hy hk h
  | waitScan i b => exact waitScanStep_move hy hk h
  | killScan pid i => exact killScanStep_move hy hk h
  | forkret | exitSched | sleepSched =>
    cases h
    exact .unlock p _ hy (hk ▸ by constructor)
  | exitRelease | waitReturn =>
    cases h
    exact .dropWait p _ hy (hk ▸ by constructor)
  | forkLink np =>
    split_ifs at h with hw
    cases h
    exact .forkLink p np hy hk hw
  | forkRun np =>
    split_ifs at h with hl
    cases h
    exact .forkRun p np hy hk (by simpa using hl)
  | exitReparent status i =>
    cases h
    exact reparentStep_move hy hk
  | exitWakeInit status i j =>
    split_ifs at h with hj
    · refine wakeupStep_move hy (fun hjp => ?_) (hk ▸ .init (j := ⟨j, hj⟩) status i) h
      subst hjp; exact hk ▸ .wakeInitSelf status i
    · cases h; exact .goto p _ hy (hk ▸ .wakeInitEnd status i j (by omega))
  | exitWakeParent status ch j =>
    split_ifs at h with hj
    · refine wakeupStep_move hy (fun hjp => ?_) (hk ▸ .parent (j := ⟨j, hj⟩) status ch) h
      subst hjp; exact hk ▸ .wakeParentSelf status ch
    · cases h; exact .goto p _ hy (hk ▸ .wakeParentEnd status ch j (by omega))
  | exitZombie status =>
    split_ifs at h with hl
    cases h
    exact .zombie p status hy hk (by simpa using hl)
  | sleepLock k =>
    split_ifs at h with hl
    cases h
    exact .sleepLock p k hy hk (by simpa using hl)
  | sleepRelease k =>
    cases k with
    | wait => cases h; exact .dropWait p _ hy (hk ▸ .sleep)
    | other a => cases h; exact .goto p _ hy (hk ▸ .sleepRelease a)
  | sleepSet k => cases h; exact .sleepSet p k hy hk
  | sleepTidy k => cases h; exact .sleepTidy p k hy hk
  | sleepReacquire k =>
    cases k with
    | wait =>
      simp only at h
      split_ifs at h with hw
      cases h
      exact .takeWait p _ hy hw (hk ▸ .sleep)
    | other a => cases h; exact .goto p _ hy (hk ▸ .sleepReacquire a)
  | wakeScan a j =>
    split_ifs at h with hj
    · refine wakeupStep_move hy (fun hjp => ?_) (hk ▸ .other (j := ⟨j, hj⟩) a) h
      subst hjp; exact hk ▸ .wakeSelf a
    · cases h; exact .goto p _ hy (hk ▸ .wakeEnd a j (by omega))

end

/-- Every step is one of the moves. -/
theorem step_move {a : Act} (h : step s a = some t) : Move s t := by
  cases a with
  | exec p c =>
    cases hy : s.yield p with
    | none => exact exec_move hy (by simpa [step, hy] using h)
    | sched => simp only [step, hy] at h; cases h; exact .yieldSched p hy
    | off => simp [step, hy] at h
    | back => simp only [step, hy] at h; cases h; exact .yieldBack p hy
  | schedule p =>
    simp only [step, scheduler] at h
    split_ifs at h with hl hr hy
    · cases h; exact .scheduleYield p hy (by simpa using hl) hr
    · cases h; exact .schedule p hy (by simpa using hl) hr
  | preempt p =>
    simp only [step] at h
    split_ifs at h with hc
    cases h
    exact .preempt p hc.1 hc.2.1 hc.2.2

end TatakOS.ProcTable
