import Mathlib.Data.List.Perm.Basic
import Mathlib.Tactic.Common
import TatakOS.Sched.Machine

/-!
# Stacks and locks

Which locks the code holds can be read off the stack of a CPU (`locks`), and so can the state of
the process that it runs (`stateOf`). `Legal` lists the stacks that occur.
-/

namespace TatakOS.Sched

open ProcTable (Slot Proc ProcState Chan)
open Function

variable {C L : Type} {th : Option Slot} {p q np : Slot} {st st' : List (Frame L)} {f : Frame L}
  {l : Lock L}

/-! ## What a stack says -/

/-- The lock of the process whose stack it is. -/
def own (th : Option Slot) : List (Lock L) := th.toList.map .proc

@[simp] theorem own_some : (own (some p) : List (Lock L)) = [.proc p] := rfl

/-- The locks that a frame holds, on the stack of `th`. -/
def Frame.locks (th : Option Slot) : Frame L → List (Lock L)
  | .scheduler (.test i) | .scheduler (.setProc i) | .scheduler (.swtch i) | .scheduler (.back i)
  | .scheduler (.release i) => [.proc i]
  | .code held | .trap held => held.map .other
  | .forkret | .yield .set | .yield .release => own th
  | .wakeup _ (.test i) | .wakeup _ (.release i) => [.proc i]
  | .sleep _ lk .acquire => [sleepLock lk]
  | .sleep _ lk .drop => own th ++ [sleepLock lk]
  | .sleep _ _ .set | .sleep _ _ .tidy | .sleep _ _ .release => own th
  | .kill _ (.test i) | .kill _ (.release i) | .kill _ (.found i) => [.proc i]
  | .fork (.test i) | .fork (.release i) | .fork (.alloc i) | .fork (.giveUp i) | .fork (.drop i)
  | .fork (.setRun i) | .fork (.unlockRun i) => [.proc i]
  | .fork (.setParent _) | .fork (.unlockParent _) => [.wait]
  | .exit _ (.reparent _) | .exit _ .acquire => [.wait]
  | .exit _ .zombie | .exit _ .drop => own th ++ [.wait]
  | .exit _ .dead => own th
  | .wait (.scan _ _) | .wait .done => [.wait]
  | .wait (.test i) | .wait (.release i) | .wait (.found i) => [.proc i, .wait]
  | _ => []

def locks (th : Option Slot) (st : List (Frame L)) : List (Lock L) := st.flatMap (Frame.locks th)

@[simp] theorem locks_nil : locks th ([] : List (Frame L)) = [] := rfl

@[simp] theorem locks_cons : locks th (f :: st) = f.locks th ++ locks th st := rfl

/-- The state of a process that runs on a CPU with this stack. -/
def stateOf : List (Frame L) → ProcState
  | .sched .check :: .yield _ :: _ | .sched (.swtch _) :: .yield _ :: _ => .RUNNABLE
  | .sched .check :: .sleep _ _ _ :: _ | .sched (.swtch _) :: .sleep _ _ _ :: _ => .SLEEPING
  | .sched .check :: .exit _ _ :: _ | .sched (.swtch _) :: .exit _ _ :: _ => .ZOMBIE
  | .exit _ .drop :: _ => .ZOMBIE
  | _ => .RUNNING

/-- The slot that a `fork` has allocated and not yet made `RUNNABLE`. -/
def Frame.child : Frame L → Option Slot
  | .fork (.alloc i) | .fork (.drop i) | .fork (.lockParent i) | .fork (.setParent i)
  | .fork (.unlockParent i) | .fork (.lockRun i) | .fork (.setRun i) => some i
  | _ => none

def Forks (st : List (Frame L)) (np : Slot) : Prop := ∃ f ∈ st, f.child = some np

/-- The process that `scheduler` has chosen, before it is loaded. -/
def chosen : List (Frame L) → Option Slot
  | .scheduler (.setProc i) :: _ | .scheduler (.swtch i) :: _ => some i
  | _ => none

/-- The process that `scheduler` has come back from. -/
def left : List (Frame L) → Option Slot
  | .scheduler (.back i) :: _ => some i
  | _ => none

/-- `c->proc` while the CPU runs `scheduler`. -/
def procOf : List (Frame L) → Option Slot
  | .scheduler (.swtch i) :: _ | .scheduler (.back i) :: _ => some i
  | _ => none

/-- Calls from the code of a process that holds no lock. -/
def Frame.isCall : Frame L → Bool
  | .kill _ _ | .fork _ | .wait _ | .sleep _ none _ => true
  | .exit _ .dead => false
  | .exit _ _ => true
  | _ => false

/-- `sched` returns to these. -/
def Frame.resumes : Frame L → Bool
  | .yield .release | .sleep _ _ .tidy => true
  | _ => false

def SchedPc.before : SchedPc → Bool
  | .back _ => false
  | _ => true

/-- The stacks of `scheduler` and of processes. -/
inductive Legal (th : Option Slot) : List (Frame L) → Prop
  | scheduler (k : SchedulerPc) (h : th = none) : Legal th [.scheduler k]
  | code (held : List L) (h : th ≠ none) : Legal th [.code held]
  | forkret (h : th ≠ none) : Legal th [.forkret]
  | sleep (ch : Chan) (l : L) (k : SleepPc) (h : th ≠ none) : Legal th [.sleep ch (some l) k]
  | call (f : Frame L) (h : th ≠ none) (hf : f.isCall = true) : Legal th [f, .code []]
  | trap (held : List L) {st : List (Frame L)} (hst : Legal th st) (hl : locks th st = []) :
    Legal th (.trap held :: st)
  | yield (k : YieldPc) {st : List (Frame L)} (h : th ≠ none) (hst : Legal th st)
    (hl : locks th st = []) : Legal th (.yield k :: st)
  | wakeup (ch : Option Chan) (k : WakeupPc) {st : List (Frame L)} (hst : Legal th st)
    (hl : ∀ p, Lock.proc p ∉ locks th st) : Legal th (.wakeup ch k :: st)
  | sched (k : SchedPc) {f : Frame L} {st : List (Frame L)} (h : th ≠ none)
    (hst : Legal th (f :: st)) (hf : f.resumes = true) : Legal th (.sched k :: f :: st)
  | exit (k : SchedPc) (status : ℤ) (h : th ≠ none) (hk : k.before = true) :
    Legal th [.sched k, .exit status .dead, .code []]

theorem Frame.locks_of_resumes (hf : f.resumes = true) : f.locks (some p) = [.proc p] := by
  cases f with
  | yield k | sleep ch lk k => cases k <;> first | rfl | cases hf
  | _ => cases hf

/-- While the state of a process is not `RUNNING` on its CPU, its lock is held there. -/
theorem Legal.lock_mem (h : Legal (some p) st) (hs : stateOf st ≠ .RUNNING) :
    Lock.proc p ∈ locks (some p) st := by
  cases h with
  | scheduler k h => cases h
  | code | forkret | sleep | trap | yield | wakeup => exact absurd rfl hs
  | call f h hf =>
    cases f with
    | exit status k =>
      cases k with
      | drop => simp [Frame.locks]
      | dead => cases hf
      | _ => exact absurd rfl hs
    | sched => cases hf
    | _ => exact absurd rfl hs
  | sched k h hst hf =>
    rw [locks_cons, locks_cons, Frame.locks_of_resumes hf]
    simp
  | exit k status h hk => simp [Frame.locks]

theorem stateOf_cases (st : List (Frame L)) :
    stateOf st = .RUNNING ∨ stateOf st = .RUNNABLE ∨ stateOf st = .SLEEPING ∨
      stateOf st = .ZOMBIE := by
  unfold stateOf
  split <;> simp

/-- The stack of a process that is switched away, and goes on when it is loaded. -/
structure Saved (p : Slot) (st : List (Frame L)) : Prop where
  legal : Legal (some p) st
  locks : locks (some p) st = [.proc p]
  running : stateOf st = .RUNNING

theorem saved_forkret : Saved p ([.forkret] : List (Frame L)) :=
  ⟨.forkret nofun, rfl, rfl⟩

/-! ## Locks -/

/-- CPU `c` holds the locks `ls`. -/
structure Held (h : Lock L → Option C) (c : C) (ls : List (Lock L)) (x : Cpu L) : Prop where
  holder : ∀ l, h l = some c ↔ l ∈ ls
  nodup : ls.Nodup
  noff : x.noff = ls.length
  intr : x.intr = true → ls = []

section Held

variable {h : Lock L → Option C} {c c' : C} {ls ls' : List (Lock L)} {x y : Cpu L}

theorem Held.congr (hh : Held h c ls x) (hn : y.noff = x.noff) (hi : y.intr = x.intr) :
    Held h c ls y where
  holder := hh.holder
  nodup := hh.nodup
  noff := hn.trans hh.noff
  intr hy := hh.intr (hi ▸ hy)

theorem Held.perm (hh : Held h c ls x) (hp : ls.Perm ls') : Held h c ls' x where
  holder l := (hh.holder l).trans hp.mem_iff
  nodup := hp.nodup_iff.mp hh.nodup
  noff := hh.noff.trans hp.length_eq
  intr hx := by
    have := hh.intr hx
    subst this
    exact hp.nil_eq.symm

variable [DecidableEq L]

theorem Held.acquire (hh : Held h c ls x) (hl : h l = none) :
    Held (update h l (some c)) c (l :: ls) x.pushOff where
  holder l' := by
    by_cases e : l' = l
    · simp [e]
    · simp [e, hh.holder]
  nodup := by
    refine List.nodup_cons.mpr ⟨fun hm => ?_, hh.nodup⟩
    rw [(hh.holder l).mpr hm] at hl
    cases hl
  noff := by
    rw [List.length_cons, ← hh.noff]
    rfl
  intr := nofun

theorem Held.acquire_other (hh : Held h c' ls x) (hl : h l = none) (hne : c' ≠ c) :
    Held (update h l (some c)) c' ls x where
  holder l' := by
    by_cases e : l' = l
    · subst e
      have hnot : l' ∉ ls := fun hm => by
        rw [(hh.holder l').mpr hm] at hl
        cases hl
      simp [hnot, hne.symm]
    · simp [e, hh.holder]
  nodup := hh.nodup
  noff := hh.noff
  intr := hh.intr

theorem Held.release (hh : Held h c (l :: ls) x) :
    ∃ y, x.popOff = .ok y ∧ y.run = x.run ∧ y.proc = x.proc ∧ y.context = x.context ∧
      Held (update h l none) c ls y := by
  have hi : x.intr = false := by
    rw [Bool.eq_false_iff]
    exact fun hx => List.cons_ne_nil _ _ (hh.intr hx)
  have hn : x.noff = ls.length + 1 := hh.noff
  have hnd := List.nodup_cons.mp hh.nodup
  refine ⟨{ x with noff := x.noff - 1, intr := x.noff - 1 = 0 ∧ x.intena = true }, ?_, rfl, rfl, rfl, ?_⟩
  · rw [Cpu.popOff, hi, if_neg Bool.false_ne_true, if_neg (by omega)]
  · refine ⟨fun l' => ?_, hnd.2, ?_, fun hy => ?_⟩
    · by_cases e : l' = l
      · subst e
        simp [hnd.1]
      · simp [e, hh.holder]
    · show x.noff - 1 = _
      omega
    · have h0 : x.noff - 1 = 0 := (of_decide_eq_true hy).1
      exact List.eq_nil_of_length_eq_zero (by omega)

theorem Held.release_other (hh : Held h c' ls x) (hl : h l = some c) (hne : c' ≠ c) :
    Held (update h l none) c' ls x where
  holder l' := by
    by_cases e : l' = l
    · subst e
      have hnot : l' ∉ ls := fun hm => by
        rw [(hh.holder l').mpr hm] at hl
        exact hne (Option.some.inj hl)
      simp [hnot]
    · simp [e, hh.holder]
  nodup := hh.nodup
  noff := hh.noff
  intr := hh.intr

end Held

end TatakOS.Sched
