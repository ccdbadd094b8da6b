import Mathlib.Logic.Function.Basic
import TatakOS.Base.Run
import TatakOS.Proc.System

/-!
# Code under a spinlock that sleeps and wakes

A call takes a spinlock, works on the data that the lock protects, calls `sleep(chan, lk)` and
`wakeup(chan)` on the way, looks at `p->killed`, and returns. `Client` is such code: what it does
next at a place `l`. The machine runs any number of calls, with the steps of `sleep` and `wakeup`,
the scheduler and `kill`. A critical section under `p->lock` alone is one step. An interrupt handler
is a thread of its own that never sleeps.

`owed` is a history variable: a `wakeup` is owed when `Client.waits` of a channel has become false
and `wakeup` has not been called since. `step_moves` says what a step can do to the places of the
threads, the locks and the data.
-/

namespace TatakOS.Monitor

open Function
open ProcTable (ProcState)

/-- What the code does next, while it holds its lock. -/
inductive Op (C D L : Type)
  /-- Go on at `l`, with the data `d`. -/
  | go (l : L) (d : D)
  /-- Call `sleep`, and go on at `l` once it has returned. -/
  | sleep (ch : C) (l : L)
  | wakeup (ch : C) (l : L)
  /-- Release the lock and return. -/
  | ret

structure Client (n : ℕ) (K C D L A : Type) where
  /-- The lock that the code at a place holds. -/
  lock : L → K
  /-- Thread `t` may begin a call at `l`. -/
  entry : Fin n → D → L → Bool
  /-- The next operation of thread `t` at a place, with the data and `p->killed`. -/
  next : A → Fin n → L → D → Bool → Op C D L
  /-- The lock that protects what the sleepers on a channel wait for. -/
  chanLock : C → K
  /-- A sleeper on the channel may stay asleep. -/
  waits : C → D → Bool

inductive Pc (C L : Type)
  | idle
  /-- At `acquire(lk)`, at the begin of a call or of the end of `sleep`. -/
  | acquire (l : L)
  | run (l : L)
  /-- In `wakeup(ch)`, at slot `j` of the process table. -/
  | wake (ch : C) (j : ℕ) (l : L)
  /-- In `sleep`: at `acquire(&p->lock)`. -/
  | sleepLock (ch : C) (l : L)
  /-- At `release(lk)`. -/
  | sleepRelease (ch : C) (l : L)
  /-- At `p->chan = chan; p->state = SLEEPING; sched()`. -/
  | sleepSet (ch : C) (l : L)
  | asleep (ch : C) (l : L)
  deriving DecidableEq

structure Thread (C L : Type) where
  pc : Pc C L := .idle
  state : ProcState := .RUNNING
  chan : Option C := none
  killed : Bool := false

structure State (n : ℕ) (K C D L : Type) where
  th : Fin n → Thread C L
  lk : K → Option (Fin n)
  data : D
  owed : C → Bool

variable {n : ℕ} {K C D L A : Type}

def State.setTh (s : State n K C D L) (t : Fin n) (x : Thread C L) : State n K C D L :=
  { s with th := update s.th t x }

def init (d : D) : State n K C D L where
  th _ := {}
  lk _ := none
  data := d
  owed _ := false

/-- `p->lock` is held from one step to the next. -/
def Thread.locked (x : Thread C L) : Bool :=
  match x.pc with
  | .sleepRelease _ _ | .sleepSet _ _ => true
  | _ => false

section Machine

variable [DecidableEq K] [DecidableEq C]

/-- The channels of the lock `k` are no longer owed anything. -/
def Client.settle (M : Client n K C D L A) (k : K) (owed : C → Bool) : C → Bool :=
  fun ch => owed ch && M.chanLock ch ≠ k

/-- What `wakeup(ch)` does to one process. -/
def wakeup1 (ch : C) (x : Thread C L) : Thread C L :=
  if x.state = .SLEEPING ∧ x.chan = some ch then { x with state := .RUNNABLE } else x

/-- The next step of thread `t`. -/
def exec (M : Client n K C D L A) (s : State n K C D L) (t : Fin n) (a : A) :
    Option (State n K C D L) :=
  let x := s.th t
  match x.pc with
  | .idle | .asleep _ _ => none
  | .acquire l =>
    if s.lk (M.lock l) = none then
      some { s.setTh t { x with pc := .run l } with lk := update s.lk (M.lock l) (some t) }
    else none
  | .run l =>
    match M.next a t l s.data x.killed with
    | .go l' d => some { s.setTh t { x with pc := .run l' } with
        data := d, owed := fun ch => s.owed ch || (M.waits ch s.data && !M.waits ch d) }
    | .sleep ch l' => some { s.setTh t { x with pc := .sleepLock ch l' } with
        owed := M.settle (M.lock l) s.owed }
    | .wakeup ch l' => some { s.setTh t { x with pc := .wake ch 0 l' } with
        owed := update s.owed ch false }
    | .ret => some { s.setTh t { x with pc := .idle } with
        lk := update s.lk (M.lock l) none, owed := M.settle (M.lock l) s.owed }
  | .wake ch j l =>
    if h : j < n then
      if ⟨j, h⟩ = t then some (s.setTh t { x with pc := .wake ch (j + 1) l })
      else if (s.th ⟨j, h⟩).locked then none
      else some ((s.setTh ⟨j, h⟩ (wakeup1 ch (s.th ⟨j, h⟩))).setTh t
        { x with pc := .wake ch (j + 1) l })
    else some (s.setTh t { x with pc := .run l })
  | .sleepLock ch l => some (s.setTh t { x with pc := .sleepRelease ch l })
  | .sleepRelease ch l => some { s.setTh t { x with pc := .sleepSet ch l } with
      lk := update s.lk (M.lock l) none }
  | .sleepSet ch l =>
    some (s.setTh t { x with chan := some ch, state := .SLEEPING, pc := .asleep ch l })

inductive Act (n : ℕ) (L A : Type)
  /-- Thread `t` begins a call. -/
  | call (t : Fin n) (l : L)
  | exec (t : Fin n) (a : A)
  /-- A CPU's `scheduler` switches to `t`; a sleeper goes on to take its lock again. -/
  | schedule (t : Fin n)
  /-- A timer interrupt makes `t` call `yield`. -/
  | yield (t : Fin n)
  | kill (t : Fin n)
  /-- The process exits, and `fork` gives its slot to a new one. -/
  | renew (t : Fin n)

/-- Where a process goes on after `scheduler` has switched to it. -/
def Pc.resume : Pc C L → Pc C L
  | .asleep _ l => .acquire l
  | k => k

/-- No spinlock is held here, so interrupts are on. -/
def Pc.interruptible : Pc C L → Bool
  | .idle | .acquire _ => true
  | _ => false

def step (M : Client n K C D L A) (s : State n K C D L) : Act n L A → Option (State n K C D L)
  | .call t l =>
    let x := s.th t
    match x.pc with
    | .idle =>
      if x.state = .RUNNING ∧ M.entry t s.data l then
        some (s.setTh t { x with pc := .acquire l })
      else none
    | _ => none
  | .exec t a => if (s.th t).state = .RUNNING then exec M s t a else none
  | .schedule t =>
    let x := s.th t
    if x.locked = false ∧ x.state = .RUNNABLE then
      some (s.setTh t { x with state := .RUNNING, chan := none, pc := x.pc.resume })
    else none
  | .yield t =>
    let x := s.th t
    if x.state = .RUNNING ∧ x.pc.interruptible then
      some (s.setTh t { x with state := .RUNNABLE })
    else none
  | .kill t =>
    let x := s.th t
    if x.locked then none
    else some (s.setTh t { x with
      killed := true, state := if x.state = .SLEEPING then .RUNNABLE else x.state })
  | .renew t =>
    let x := s.th t
    match x.pc with
    | .idle => some (s.setTh t { x with killed := false })
    | _ => none

end Machine

/-! ## What a place says -/

/-- The code that is under way, while it holds its lock and is not in `sleep`. -/
def Pc.code : Pc C L → Option L
  | .run l | .wake _ _ l => some l
  | _ => none

/-- The code that will go on when the lock is taken. -/
def Pc.later : Pc C L → Option L
  | .acquire l | .sleepLock _ l | .sleepRelease _ l | .sleepSet _ l | .asleep _ l => some l
  | _ => none

/-- The code of the call. -/
def Pc.place (pc : Pc C L) : Option L := pc.code.or pc.later

/-- The lock that is held. -/
def Pc.holds (M : Client n K C D L A) : Pc C L → Option K
  | .run l | .wake _ _ l | .sleepLock _ l | .sleepRelease _ l => some (M.lock l)
  | _ => none

variable {M : Client n K C D L A} {s s' : State n K C D L} {t : Fin n} {a : Act n L A}

theorem Pc.holds_of_code {pc : Pc C L} {l : L} (h : pc.code = some l) :
    pc.holds M = some (M.lock l) := by
  cases pc <;> simp_all [Pc.code, Pc.holds]

/-! ## What a step does -/

/-- The two places are in the same code, and hold the same lock. -/
structure Pc.Same (M : Client n K C D L A) (pc pc' : Pc C L) : Prop where
  code : pc'.code = pc.code
  later : pc'.later = pc.later
  holds : pc'.holds M = pc.holds M

theorem Pc.Same.place {pc pc' : Pc C L} (h : Pc.Same M pc pc') : pc'.place = pc.place := by
  rw [Pc.place, h.code, h.later, Pc.place]

/-- The step neither begins a call nor goes on in its code. -/
def Act.Quiet (s : State n K C D L) : Act n L A → Prop
  | .call _ _ => False
  | .exec t _ => ∀ l, (s.th t).pc ≠ .run l
  | _ => True

/-- What a step does to thread `t`, the locks and the data. -/
inductive Moves [DecidableEq K] (M : Client n K C D L A) (s s' : State n K C D L) (t : Fin n) :
    Act n L A → Prop
  /-- The thread goes on in `sleep`, `wakeup` or the scheduler, and takes or releases no lock. -/
  | quiet {a : Act n L A} (hsame : Pc.Same M (s.th t).pc (s'.th t).pc) (hlk : s'.lk = s.lk)
      (hdata : s'.data = s.data) (hquiet : a.Quiet s) : Moves M s s' t a
  | call (l : L) (hpc : (s.th t).pc = .idle) (hpc' : (s'.th t).pc = .acquire l)
      (hentry : M.entry t s.data l = true) (hlk : s'.lk = s.lk) (hdata : s'.data = s.data) :
      Moves M s s' t (.call t l)
  | acquire (l : L) (x : A) (hpc : (s.th t).pc = .acquire l) (hpc' : (s'.th t).pc = .run l)
      (hfree : s.lk (M.lock l) = none) (hlk : s'.lk = update s.lk (M.lock l) (some t))
      (hdata : s'.data = s.data) : Moves M s s' t (.exec t x)
  | go (l l' : L) (x : A) (hpc : (s.th t).pc = .run l) (hpc' : (s'.th t).pc = .run l')
      (hnext : M.next x t l s.data (s.th t).killed = .go l' s'.data) (hlk : s'.lk = s.lk) :
      Moves M s s' t (.exec t x)
  | sleep (l l' : L) (ch : C) (x : A) (hpc : (s.th t).pc = .run l)
      (hpc' : (s'.th t).pc = .sleepLock ch l')
      (hnext : M.next x t l s.data (s.th t).killed = .sleep ch l') (hlk : s'.lk = s.lk)
      (hdata : s'.data = s.data) : Moves M s s' t (.exec t x)
  | wakeup (l l' : L) (ch : C) (x : A) (hpc : (s.th t).pc = .run l)
      (hpc' : (s'.th t).pc = .wake ch 0 l')
      (hnext : M.next x t l s.data (s.th t).killed = .wakeup ch l') (hlk : s'.lk = s.lk)
      (hdata : s'.data = s.data) : Moves M s s' t (.exec t x)
  | ret (l : L) (x : A) (hpc : (s.th t).pc = .run l) (hpc' : (s'.th t).pc = .idle)
      (hnext : M.next x t l s.data (s.th t).killed = .ret)
      (hlk : s'.lk = update s.lk (M.lock l) none) (hdata : s'.data = s.data) :
      Moves M s s' t (.exec t x)
  | release (l : L) (ch : C) (x : A) (hpc : (s.th t).pc = .sleepRelease ch l)
      (hpc' : (s'.th t).pc = .sleepSet ch l) (hlk : s'.lk = update s.lk (M.lock l) none)
      (hdata : s'.data = s.data) : Moves M s s' t (.exec t x)

@[simp] theorem setTh_self (s : State n K C D L) (t : Fin n) (y : Thread C L) :
    (s.setTh t y).th t = y := update_self ..

theorem setTh_ne (s : State n K C D L) {t u : Fin n} (h : u ≠ t) (y : Thread C L) :
    (s.setTh t y).th u = s.th u := update_of_ne h ..

theorem th_update (f : Fin n → Thread C L) (t : Fin n) (y : Thread C L) (u : Fin n) :
    update f t y u = y ∨ update f t y u = f u := by
  rcases eq_or_ne u t with rfl | e
  · exact .inl (update_self u y f)
  · exact .inr (update_of_ne e y f)

section Machine

variable [DecidableEq K] [DecidableEq C]

omit [DecidableEq K] in
theorem wakeup1_pc (ch : C) (x : Thread C L) : (wakeup1 ch x).pc = x.pc := by
  unfold wakeup1
  split_ifs <;> rfl

theorem exec_moves {x : A} (h : exec M s t x = some s') :
    (∀ u, u ≠ t → (s'.th u).pc = (s.th u).pc) ∧ Moves M s s' t (.exec t x) := by
  have hset : ∀ (y : Thread C L) u, u ≠ t → ((s.setTh t y).th u).pc = (s.th u).pc :=
    fun y u hu => congrArg Thread.pc (setTh_ne s hu y)
  cases hpc : (s.th t).pc with
  | idle => simp [exec, hpc] at h
  | asleep ch l => simp [exec, hpc] at h
  | acquire l =>
    simp only [exec, hpc, Option.ite_none_right_eq_some, Option.some.injEq] at h
    obtain ⟨hfree, rfl⟩ := h
    exact ⟨hset _, .acquire l x hpc (by simp) hfree rfl rfl⟩
  | run l =>
    simp only [exec, hpc] at h
    cases hnext : M.next x t l s.data (s.th t).killed with rw [hnext] at h
    | go l' d =>
      cases h
      exact ⟨hset _, .go l l' x hpc (by simp) hnext rfl⟩
    | sleep ch l' =>
      cases h
      exact ⟨hset _, .sleep l l' ch x hpc (by simp) hnext rfl rfl⟩
    | wakeup ch l' =>
      cases h
      exact ⟨hset _, .wakeup l l' ch x hpc (by simp) hnext rfl rfl⟩
    | ret =>
      cases h
      exact ⟨hset _, .ret l x hpc (by simp) hnext rfl rfl⟩
  | wake ch j l =>
    have hquiet : (Act.exec t x : Act n L A).Quiet s := fun l => by rw [hpc]; nofun
    have hsame : ∀ pc', pc' = .wake ch (j + 1) l ∨ pc' = .run l → Pc.Same M (s.th t).pc pc' := by
      rintro _ (rfl | rfl) <;> rw [hpc] <;> exact ⟨rfl, rfl, rfl⟩
    simp only [exec, hpc] at h
    split_ifs at h with h1 h2 h3
    · cases h
      exact ⟨hset _, .quiet (hsame _ (by simp)) rfl rfl hquiet⟩
    · cases h
      refine ⟨fun u hu => ?_, .quiet (hsame _ (by simp)) rfl rfl hquiet⟩
      rw [setTh_ne _ hu]
      by_cases e : u = ⟨j, h1⟩
      · rw [e, setTh_self, wakeup1_pc]
      · rw [setTh_ne _ e]
    · cases h
      exact ⟨hset _, .quiet (hsame _ (by simp)) rfl rfl hquiet⟩
  | sleepLock ch l | sleepSet ch l =>
    simp only [exec, hpc, Option.some.injEq] at h
    subst h
    refine ⟨hset _, .quiet ?_ rfl rfl fun l => by rw [hpc]; nofun⟩
    rw [setTh_self, hpc]
    exact ⟨rfl, rfl, rfl⟩
  | sleepRelease ch l =>
    simp only [exec, hpc, Option.some.injEq] at h
    subst h
    exact ⟨hset _, .release l ch x hpc (by simp) rfl rfl⟩

theorem step_moves (h : step M s a = some s') :
    ∃ t, (∀ u, u ≠ t → (s'.th u).pc = (s.th u).pc) ∧ Moves M s s' t a := by
  -- a step of the scheduler or of `kill` leaves thread `t` in its code
  have hset : ∀ {t : Fin n} {y : Thread C L}, a.Quiet s → s' = s.setTh t y →
      Pc.Same M (s.th t).pc y.pc → ∃ t, (∀ u, u ≠ t → (s'.th u).pc = (s.th u).pc) ∧ Moves M s s' t a := by
    rintro t y hq rfl hsame
    refine ⟨t, fun u hu => congrArg Thread.pc (setTh_ne s hu y), .quiet ?_ rfl rfl hq⟩
    rwa [setTh_self]
  cases a with
  | call t l =>
    cases hpc : (s.th t).pc with
    | idle =>
      simp only [step, hpc, Option.ite_none_right_eq_some, Option.some.injEq] at h
      obtain ⟨⟨-, hentry⟩, rfl⟩ := h
      exact ⟨t, fun u hu => congrArg Thread.pc (setTh_ne s hu _), .call l hpc (by simp) hentry rfl rfl⟩
    | _ => simp [step, hpc] at h
  | exec t x =>
    simp only [step, Option.ite_none_right_eq_some] at h
    exact ⟨t, exec_moves h.2⟩
  | schedule t =>
    simp only [step, Option.ite_none_right_eq_some, Option.some.injEq] at h
    refine hset trivial h.2.symm ?_
    cases (s.th t).pc <;> exact ⟨rfl, rfl, rfl⟩
  | yield t =>
    simp only [step, Option.ite_none_right_eq_some, Option.some.injEq] at h
    exact hset trivial h.2.symm ⟨rfl, rfl, rfl⟩
  | kill t =>
    simp only [step, Option.ite_none_left_eq_some, Option.some.injEq] at h
    exact hset trivial h.2.symm ⟨rfl, rfl, rfl⟩
  | renew t =>
    cases hpc : (s.th t).pc with
    | idle =>
      simp only [step, hpc, Option.some.injEq] at h
      exact hset trivial h.symm (by rw [hpc]; exact ⟨rfl, rfl, rfl⟩)
    | _ => simp [step, hpc] at h

end Machine

end TatakOS.Monitor
