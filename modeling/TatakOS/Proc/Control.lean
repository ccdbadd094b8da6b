import TatakOS.Proc.Moves

/-!
# Locks and states follow the program counters

`SlotOk` ties the locks, the state and the channel of a slot to where its process is in the code.
`ForkOk` says that a slot allocated by a `fork` in progress is `USED` and belongs to that `fork`
alone.
-/

namespace TatakOS.ProcTable

open Function

variable {s t : Kernel} {p q np : Slot} {c : Choice} {k k' : Pc}

def Sleep.isWait : Sleep → Bool
  | .wait => true
  | .other _ => false

/-- `wait_lock` is held here. -/
def Pc.holdsWait : Pc → Bool
  | .exitReparent _ _ | .exitWakeInit _ _ _ | .exitWakeParent _ _ _ | .exitZombie _ | .exitRelease
  | .waitScan _ _ | .waitReturn => true
  | .sleepLock k | .sleepRelease k => k.isWait
  | _ => false

/-- `p->lock` is held here. -/
def Pc.holdsLock : Pc → Bool
  | .forkret | .exitRelease | .exitSched | .sleepRelease _ | .sleepSet _ | .sleepSched _
  | .sleepTidy _ => true
  | _ => false

def Yield.holdsLock : Yield → Bool
  | .sched | .back => true
  | _ => false

/-- The slot that a `fork` has allocated and not yet made `RUNNABLE`. -/
def Pc.forking : Pc → Option Slot
  | .forkLink np | .forkRun np => some np
  | _ => none

/-- The sleep that `p->chan` is set for. -/
def Pc.sleeping : Pc → Option Sleep
  | .sleepSched k | .asleep k | .sleepTidy k => some k
  | _ => none

/-- The states a process may have at a program counter, outside `yield`. -/
def Pc.allows : Pc → ProcState → Bool
  | .dead, x => x = .UNUSED ∨ x = .ZOMBIE
  | .newborn, x => x = .USED ∨ x = .RUNNABLE
  | .asleep _, x => x = .SLEEPING ∨ x = .RUNNABLE
  | .exitRelease, x | .exitSched, x => x = .ZOMBIE
  | .sleepSched _, x => x = .SLEEPING
  | _, x => x = .RUNNING

/-- The states a process may have, in `yield` or outside it. -/
def Yield.allows (k : Pc) : Yield → ProcState → Bool
  | .none, x => k.allows x
  | .sched, x | .off, x => x = .RUNNABLE
  | .back, x => x = .RUNNING

/-- The lock words, the state and the channel of a slot fit its program counter. -/
structure SlotOk (s : Kernel) (p : Slot) : Prop where
  wait : s.waitLock = some p ↔ (s.pc p).holdsWait = true
  lock : s.lock p = ((s.pc p).holdsLock || (s.yield p).holdsLock)
  yield : s.yield p ≠ .none → (s.pc p).interruptible = true
  state : (s.yield p).allows (s.pc p) (s.proc p).state = true
  chan : (s.proc p).chan = (s.pc p).sleeping.map (Sleep.chan p)

/-! ## Moves of the program counter alone -/

/-- What `SlotOk` reads of a program counter is the same before and after. -/
structure SameControl (k k' : Pc) : Prop where
  holdsWait : k.holdsWait = k'.holdsWait
  holdsLock : k.holdsLock = k'.holdsLock
  allows : k.allows = k'.allows
  sleeping : k.sleeping = k'.sleeping

theorem Goto.same (h : Goto s p k k') : SameControl k k' := by cases h <;> constructor <;> rfl

theorem WakeAt.same {j : Slot} {ch : Option Chan} (h : WakeAt j ch k k') : SameControl k k' := by
  cases h <;> constructor <;> rfl

theorem SlotOk.frame (hp : SlotOk s p) (h : (t.waitLock = some p ↔ s.waitLock = some p) ∧
    t.proc p = s.proc p ∧ t.lock p = s.lock p ∧ t.pc p = s.pc p ∧ t.yield p = s.yield p) :
    SlotOk t p := by
  obtain ⟨g1, g2, g3, g4, g5⟩ := hp
  constructor <;> simp_all

theorem slotOk_setPc (hk : s.pc p = k) (h : SameControl k k') (hy : s.yield p = .none)
    (hi : ∀ r, SlotOk s r) (r : Slot) : SlotOk (s.setPc p k') r := by
  rcases eq_or_ne r p with rfl | e
  · obtain ⟨h1, h2, h3, h4⟩ := h
    obtain ⟨g1, g2, -, g4, g5⟩ := hi r
    constructor <;> simp_all [Yield.allows]
  · exact (hi r).frame (by simp [*])

/-- Where a process is `SLEEPING` with its lock free, it may also be `RUNNABLE`. -/
theorem Yield.allows_runnable {y : Yield} (h : y.allows k .SLEEPING = true)
    (hl : (k.holdsLock || y.holdsLock) = false) : y.allows k .RUNNABLE = true := by
  cases y with
  | none => cases k <;> simp_all [Yield.allows, Pc.allows, Pc.holdsLock]
  | sched | off | back => simp [Yield.allows] at h

section

variable {x : Proc} (hx : x.state = (s.proc q).state ∨
    s.lock q = false ∧ (s.proc q).state = .SLEEPING ∧ x.state = .RUNNABLE)
  (hc : x.chan = (s.proc q).chan) (hi : ∀ r, SlotOk s r) (r : Slot)
include hx hc hi

/-- A change to fields other than `state` and `chan`, or a wakeup. -/
theorem slotOk_setProc : SlotOk (s.setProc q x) r := by
  rcases eq_or_ne r q with rfl | e
  · obtain ⟨g1, g2, g3, g4, g5⟩ := hi r
    refine ⟨by simpa using g1, by simpa using g2, by simpa using g3, ?_, by simpa [hc] using g5⟩
    simp only [Kernel.setProc_pc, Kernel.setProc_yield, Kernel.setProc_proc, update_self]
    rcases hx with hx | ⟨hl, hs, hx⟩
    · rw [hx]; exact g4
    · rw [hs] at g4
      rw [hx]
      exact Yield.allows_runnable g4 (g2.symm.trans hl)
  · exact (hi r).frame (by simp [*])

/-- The two together: `p` changes `q` in such a way and goes on. -/
theorem slotOk_touch (hk : s.pc p = k) (h : SameControl k k') (hy : s.yield p = .none) :
    SlotOk ((s.setProc q x).setPc p k') r :=
  slotOk_setPc (s := s.setProc q x) hk h hy (slotOk_setProc hx hc hi) r

end

theorem slotOk_record {e : Event} (h : SlotOk s p) : SlotOk (s.record e) p := ⟨h.1, h.2, h.3, h.4, h.5⟩

/-! ## Reading the program counter off the state -/

section OfState

attribute [local simp] Pc.holdsLock Yield.holdsLock Yield.allows Pc.allows

theorem SlotOk.pc_of_unused (hp : SlotOk s p) (hu : (s.proc p).state = .UNUSED) :
    s.pc p = .dead ∧ s.yield p = .none := by
  have h := hp.state
  rw [hu] at h
  generalize s.pc p = k, s.yield p = y at h
  cases y <;> cases k <;> simp at h ⊢

theorem SlotOk.pc_of_used (hp : SlotOk s p) (hu : (s.proc p).state = .USED) :
    s.pc p = .newborn ∧ s.yield p = .none := by
  have h := hp.state
  rw [hu] at h
  generalize s.pc p = k, s.yield p = y at h
  cases y <;> cases k <;> simp at h ⊢

theorem SlotOk.pc_of_zombie (hp : SlotOk s p) (hz : (s.proc p).state = .ZOMBIE)
    (hl : s.lock p = false) : s.pc p = .dead ∧ s.yield p = .none := by
  have h := hp.state
  have g := hp.lock.symm.trans hl
  rw [hz] at h
  generalize s.pc p = k, s.yield p = y at h g
  cases y <;> cases k <;> simp at h g ⊢

theorem SlotOk.pc_of_sleeping (hp : SlotOk s p) (hs : (s.proc p).state = .SLEEPING) :
    ∃ k, s.pc p = .sleepSched k ∨ s.pc p = .asleep k := by
  have h := hp.state
  rw [hs] at h
  generalize s.pc p = k, s.yield p = y at h
  cases y <;> cases k <;> simp at h ⊢

/-- `scheduler` only finds processes that have left their CPU. -/
theorem SlotOk.pc_of_runnable (hp : SlotOk s p) (hr : (s.proc p).state = .RUNNABLE)
    (hl : s.lock p = false) (hy : s.yield p ≠ .off) :
    s.yield p = .none ∧ (s.pc p = .newborn ∨ ∃ k, s.pc p = .asleep k) := by
  have h := hp.state
  have g := hp.lock.symm.trans hl
  rw [hr] at h
  generalize s.pc p = k, s.yield p = y at h g hy ⊢
  cases y <;> cases k <;> simp at h g hy ⊢

end OfState

/-- A process that runs code outside `yield` has the state of its program counter. -/
theorem SlotOk.allows (hp : SlotOk s p) (hy : s.yield p = .none) :
    (s.pc p).allows (s.proc p).state = true := by
  have h := hp.state
  rwa [hy] at h

/-! ## What a wakeup and a kill change -/

section

variable (ch : Option Chan) (x : Proc)

theorem wakeup1_state : (wakeup1 ch x).state = x.state ∨
    x.state = .SLEEPING ∧ (wakeup1 ch x).state = .RUNNABLE := by
  unfold wakeup1
  split_ifs with h
  · exact .inr ⟨h.1, rfl⟩
  · exact .inl rfl

@[simp] theorem wakeup1_chan : (wakeup1 ch x).chan = x.chan := by
  unfold wakeup1; split_ifs <;> rfl

@[simp] theorem wakeup1_parent : (wakeup1 ch x).parent = x.parent := by
  unfold wakeup1; split_ifs <;> rfl

@[simp] theorem wakeup1_pid : (wakeup1 ch x).pid = x.pid := by
  unfold wakeup1; split_ifs <;> rfl

@[simp] theorem wakeup1_xstate : (wakeup1 ch x).xstate = x.xstate := by
  unfold wakeup1; split_ifs <;> rfl

@[simp] theorem wakeup1_killed : (wakeup1 ch x).killed = x.killed := by
  unfold wakeup1; split_ifs <;> rfl

end

theorem kill1_state (x : Proc) : (kill1 x).state = x.state ∨
    x.state = .SLEEPING ∧ (kill1 x).state = .RUNNABLE := by
  unfold kill1
  by_cases h : x.state = .SLEEPING
  · exact .inr ⟨h, by simp [h]⟩
  · exact .inl (by simp [h])

/-- Of the states a wakeup or a kill leaves, only `RUNNABLE` is new. -/
theorem state_of_woken {x y : Proc} {z : ProcState} (h : y.state = x.state ∨
      x.state = .SLEEPING ∧ y.state = .RUNNABLE) (hy : y.state = z) (hz : z ≠ .RUNNABLE) :
    x.state = z := by
  rcases h with h | ⟨-, h⟩
  · rw [← h, hy]
  · exact absurd (hy.symm.trans h) hz

/-! ## Every move keeps them -/

theorem Pc.interruptible_control (h : k.interruptible = true) :
    k.holdsLock = false ∧ k.allows .RUNNING = true := by
  cases k <;> simp_all [Pc.interruptible, Pc.holdsLock, Pc.allows]

section Keep

attribute [local simp] Pc.holdsWait Pc.holdsLock Yield.holdsLock Pc.sleeping Yield.allows Pc.allows
  Sleep.isWait

variable (hi : ∀ p, SlotOk s p) (r : Slot)

include hi

theorem slotOk_takeWait (hg : TakeWait p (s.pc p) k') (hy : s.yield p = .none)
    (hw : s.waitLock = none) : SlotOk ((s.setWaitLock (some p)).setPc p k') r := by
  rcases eq_or_ne r p with rfl | e
  · obtain ⟨g1, g2, g3, g4, g5⟩ := hi r
    generalize hk : s.pc r = k at *
    cases hg <;> constructor <;> simp_all
  · exact (hi r).frame (by simp [hw, e, e.symm])

theorem slotOk_dropWait (hg : DropWait (s.pc p) k') (hy : s.yield p = .none) :
    SlotOk ((s.setWaitLock none).setPc p k') r := by
  have hw : s.waitLock = some p := by
    rw [(hi p).wait]; generalize s.pc p = k at hg; cases hg <;> rfl
  rcases eq_or_ne r p with rfl | e
  · obtain ⟨g1, g2, g3, g4, g5⟩ := hi r
    generalize hk : s.pc r = k at *
    cases hg <;> constructor <;> simp_all
  · exact (hi r).frame (by simp [hw, e, e.symm])

theorem slotOk_unlock (hg : Unlock (s.pc p) k') (hy : s.yield p = .none) :
    SlotOk ((s.setLock p false).setPc p k') r := by
  rcases eq_or_ne r p with rfl | e
  · obtain ⟨g1, g2, g3, g4, g5⟩ := hi r
    generalize hk : s.pc r = k at *
    cases hg <;> constructor <;> simp_all
  · exact (hi r).frame (by simp [*])

theorem slotOk_schedule (hy : s.yield p ≠ .off) (hl : s.lock p = false)
    (hr : (s.proc p).state = .RUNNABLE) :
    SlotOk (((s.setLock p true).setProc p { s.proc p with state := .RUNNING }).setPc p
      (s.pc p).resume) r := by
  obtain ⟨hy', hk⟩ := (hi p).pc_of_runnable hr hl hy
  rcases eq_or_ne r p with rfl | e
  · obtain ⟨g1, g2, g3, g4, g5⟩ := hi r
    rcases hk with hk | ⟨k, hk⟩ <;> constructor <;> simp_all [Pc.resume]
  · exact (hi r).frame (by simp [*])

theorem slotOk_move (h : Move s t) (hf : ∀ p np, (s.pc p).forking = some np →
    (s.proc np).state = .USED) : SlotOk t r := by
  cases h with
  | goto p k' hy hg => exact slotOk_setPc rfl hg.same hy hi r
  | takeWait p k' hy hw hg => exact slotOk_takeWait hi r hg hy hw
  | dropWait p k' hy hg => exact slotOk_dropWait hi r hg hy
  | unlock p k' hy hg => exact slotOk_unlock hi r hg hy
  | alloc p np hy hk hl hu =>
    obtain ⟨hnk, hny⟩ := (hi np).pc_of_unused hu
    have hne : p ≠ np := by rintro rfl; rw [hk] at hnk; cases hnk
    have hc : (s.proc np).chan = none := by rw [(hi np).chan, hnk]; rfl
    rcases eq_or_ne r np with rfl | e
    · obtain ⟨g1, g2, g3, g4, g5⟩ := hi r
      constructor <;> simp_all [allocproc_eq, hne.symm]
    rcases eq_or_ne r p with rfl | e'
    · obtain ⟨g1, g2, g3, g4, g5⟩ := hi r
      constructor <;> simp_all [allocproc_eq]
    · exact (hi r).frame (by simp [allocproc_eq, e, e'])
  | allocFails p np hy hk hl hu =>
    obtain ⟨hnk, hny⟩ := (hi np).pc_of_unused hu
    have hne : p ≠ np := by rintro rfl; rw [hk] at hnk; cases hnk
    rcases eq_or_ne r np with rfl | e
    · obtain ⟨g1, g2, g3, g4, g5⟩ := hi r
      constructor <;> simp_all [allocprocFails, freeproc, hne.symm]
    rcases eq_or_ne r p with rfl | e'
    · obtain ⟨g1, g2, g3, g4, g5⟩ := hi r
      constructor <;> simp_all [allocprocFails]
    · exact (hi r).frame (by simp [allocprocFails, e, e'])
  | forkLink p np hy hk hw | reparent p pp status hy hk h =>
    refine slotOk_touch ?_ ?_ hi r hk ?_ hy
    · exact .inl rfl
    · rfl
    · constructor <;> rfl
  | forkRun p np hy hk hl =>
    obtain ⟨hnk, hny⟩ := (hi np).pc_of_used (hf p np (by rw [hk]; rfl))
    have hne : p ≠ np := by rintro rfl; rw [hk] at hnk; cases hnk
    rcases eq_or_ne r np with rfl | e
    · obtain ⟨g1, g2, g3, g4, g5⟩ := hi r
      constructor <;> simp_all [hne.symm]
    rcases eq_or_ne r p with rfl | e'
    · obtain ⟨g1, g2, g3, g4, g5⟩ := hi r
      constructor <;> simp_all
    · exact (hi r).frame (by simp [*])
  | wakeup p j ch k' hy hj hl hg =>
    exact slotOk_touch ((wakeup1_state ch _).imp_right fun h => ⟨hl, h⟩) (wakeup1_chan ch _) hi r
      rfl hg.same hy
  | kill p q pid hy hk hl h =>
    refine slotOk_record
      (slotOk_touch ((kill1_state _).imp_right fun h => ⟨hl, h⟩) (kill1_chan _) hi r hk ?_ hy)
    constructor <;> rfl
  | copyoutFailed p np b hy hk h hl hz =>
    refine slotOk_record (slotOk_setPc hk ?_ hy hi r)
    constructor <;> rfl
  | reap p np b hy hk h hl hz =>
    obtain ⟨hnk, hny⟩ := (hi np).pc_of_zombie hz hl
    have hne : p ≠ np := by rintro rfl; rw [hk] at hnk; cases hnk
    rcases eq_or_ne r np with rfl | e
    · obtain ⟨g1, g2, g3, g4, g5⟩ := hi r
      constructor <;> simp_all [freeproc, hne.symm]
    rcases eq_or_ne r p with rfl | e'
    · obtain ⟨g1, g2, g3, g4, g5⟩ := hi r
      constructor <;> simp_all
    · exact (hi r).frame (by simp [*])
  | sleepLock p k hy hk hl | zombie p status hy hk hl | sleepTidy p k hy hk | sleepSet p k hy hk
  | preempt p hy hk hl | scheduleYield p hy hl hr =>
    rcases eq_or_ne r p with rfl | e
    · obtain ⟨g1, g2, g3, g4, g5⟩ := hi r
      constructor <;> simp_all
    · exact (hi r).frame (by simp [*])
  | yieldSched p hy | yieldBack p hy =>
    rcases eq_or_ne r p with rfl | e
    · obtain ⟨g1, g2, g3, g4, g5⟩ := hi r
      have hk := Pc.interruptible_control (g3 (by simp [hy]))
      constructor <;> simp_all
    · exact (hi r).frame (by simp [*])
  | schedule p hy hl hr => exact slotOk_schedule hi r hy hl hr

end Keep

/-! ## What a move does to one slot -/

/-- What a move does to the fields of slot `q`. -/
inductive ProcMove (s t : Kernel) (q : Slot) : Prop
  | same (h : t.proc q = s.proc q)
  | alloc (p : Slot) (hk : s.pc p = .forkScan q) (hu : (s.proc q).state = .UNUSED)
    (h : t.proc q = { s.proc q with pid := s.nextpid, state := .USED })
  | allocFails (hu : (s.proc q).state = .UNUSED) (h : t.proc q = freeproc)
  | link (p : Slot) (hk : s.pc p = .forkLink q) (hk' : t.pc p = .forkRun q)
    (hw : s.waitLock = none) (h : t.proc q = { s.proc q with parent := some p })
  | run (p : Slot) (hk : s.pc p = .forkRun q) (hk' : t.pc p = .user)
    (h : t.proc q = { s.proc q with state := .RUNNABLE })
  | reparent (p : Slot) (status : ℤ) (hk : s.pc p = .exitReparent status q)
    (hk' : t.pc p = .exitWakeInit status q 0) (hp : (s.proc q).parent = some p)
    (h : t.proc q = { s.proc q with parent := some initproc })
  | wakeup (p : Slot) (ch : Option Chan) (k' : Pc) (hl : s.lock q = false)
    (hg : WakeAt q ch (s.pc p) k') (h : t.proc q = wakeup1 ch (s.proc q))
  | zombie (status : ℤ) (hk : s.pc q = .exitZombie status) (hy : s.yield q = .none)
    (h : t.proc q = { s.proc q with xstate := status, state := .ZOMBIE })
  | reap (p : Slot) (b : Bool) (hk : s.pc p = .waitScan q b) (hp : (s.proc q).parent = some p)
    (hz : (s.proc q).state = .ZOMBIE) (h : t.proc q = freeproc)
  | sleep (k : Sleep) (hk : s.pc q = .sleepSet k) (hy : s.yield q = .none)
    (h : t.proc q = { s.proc q with chan := some (k.chan q), state := .SLEEPING })
  | tidy (k : Sleep) (hk : s.pc q = .sleepTidy k) (h : t.proc q = { s.proc q with chan := none })
  | kill (p : Slot) (pid : ℤ) (hk : s.pc p = .killScan pid q) (hl : s.lock q = false)
    (hp : (s.proc q).pid = pid) (h : t.proc q = kill1 (s.proc q))
    (hh : t.history = s.history ++ [.killed p q pid])
  | preempt (hy : s.yield q = .none) (hk : (s.pc q).interruptible = true)
    (h : t.proc q = { s.proc q with state := .RUNNABLE })
  | schedule (hr : (s.proc q).state = .RUNNABLE)
    (h : t.proc q = { s.proc q with state := .RUNNING })

theorem eq_of_update_ne {α : Type} {f : Slot → α} {y : α} (h : update f p y q ≠ f q) : q = p :=
  by_contra fun e => h (update_of_ne e y f)

theorem procMove_of_move (h : Move s t) (q : Slot) : ProcMove s t q := by
  by_cases e : t.proc q = s.proc q
  · exact .same e
  cases h with
  | goto | takeWait | dropWait | unlock | sleepLock | copyoutFailed | yieldSched | yieldBack =>
    exact absurd rfl e
  | alloc p np hy hk hl hu =>
    obtain rfl := eq_of_update_ne e
    exact .alloc p hk hu (by simp [allocproc_eq])
  | allocFails p np hy hk hl hu =>
    obtain rfl := eq_of_update_ne e
    exact .allocFails hu (by simp [allocprocFails])
  | forkLink p np hy hk hw =>
    obtain rfl := eq_of_update_ne e
    exact .link p hk (by simp) hw (by simp)
  | forkRun p np hy hk hl =>
    obtain rfl := eq_of_update_ne e
    exact .run p hk (by simp) (by simp)
  | reparent p pp status hy hk h =>
    obtain rfl := eq_of_update_ne e
    exact .reparent p status hk (by simp) h (by simp)
  | wakeup p j ch k' hy hj hl hg =>
    obtain rfl := eq_of_update_ne e
    exact .wakeup p ch k' hl hg (by simp)
  | zombie p status hy hk hl =>
    obtain rfl := eq_of_update_ne e
    exact .zombie status hk hy (by simp)
  | reap p np b hy hk h hl hz =>
    obtain rfl := eq_of_update_ne e
    exact .reap p b hk h hz (by simp)
  | sleepSet p k hy hk =>
    obtain rfl := eq_of_update_ne e
    exact .sleep k hk hy (by simp)
  | sleepTidy p k hy hk =>
    obtain rfl := eq_of_update_ne e
    exact .tidy k hk (by simp)
  | kill p q' pid hy hk hl h =>
    obtain rfl := eq_of_update_ne e
    exact .kill p pid hk hl h (by simp) rfl
  | preempt p hy hk hl =>
    obtain rfl := eq_of_update_ne e
    exact .preempt hy hk (by simp)
  | scheduleYield p hy hl hr | schedule p hy hl hr =>
    obtain rfl := eq_of_update_ne e
    exact .schedule hr (by simp)

/-! ## Slots allocated by a fork in progress -/

/-- A slot that a `fork` has allocated is `USED`, and belongs to one `fork`. -/
structure ForkOk (s : Kernel) : Prop where
  used : ∀ p np, (s.pc p).forking = some np → (s.proc np).state = .USED
  unique : ∀ p q np, (s.pc p).forking = some np → (s.pc q).forking = some np → p = q

/-- The control part of the invariant. -/
structure Control (s : Kernel) : Prop where
  slot : ∀ p, SlotOk s p
  fork : ForkOk s

theorem forking_of_move (h : Move s t) {r : Slot} (hr : (t.pc r).forking = some np) :
    (s.pc r).forking = some np ∨ (s.proc np).state = .UNUSED ∧ (t.proc np).state = .USED ∧
        ∀ q, q ≠ r → (t.pc q).forking = some np → (s.pc q).forking = some np := by
  cases h with
  | goto p k' hy hg | takeWait p k' hy hw hg | dropWait p k' hy hg | unlock p k' hy hg
  | wakeup p j ch k' hy hj hl hg =>
    left
    rcases eq_or_ne r p with rfl | e
    · generalize s.pc r = k at *
      cases hg <;> simp_all [Pc.forking]
    · simpa [e] using hr
  | schedule p hy hl h =>
    left
    rcases eq_or_ne r p with rfl | e
    · cases hk : s.pc r <;> simp_all [Pc.forking, Pc.resume]
    · simpa [e] using hr
  | alloc p np' hy hk hl hu =>
    set t' := ((allocproc s np').setPc p (.forkLink np')).record (.forked p np' s.nextpid) with ht
    have hpc : ∀ q, q ≠ p → (t'.pc q).forking = some np → (s.pc q).forking = some np := by
      intro q e hq
      rcases eq_or_ne q np' with rfl | e'
      · simp [Pc.forking, ht, allocproc_eq, e] at hq
      · simpa [ht, allocproc_eq, e, e'] using hq
    rcases eq_or_ne r p with rfl | e
    · right
      obtain rfl : np' = np := by simpa [Pc.forking, ht] using hr
      exact ⟨hu, by simp [ht, allocproc_eq], hpc⟩
    · exact .inl (hpc r e hr)
  | yieldSched p hy | yieldBack p hy | preempt p hy | scheduleYield p hy => exact .inl hr
  | _ p =>
    left
    rcases eq_or_ne r p with rfl | e
    · simp_all [Pc.forking]
    · simpa [e, allocprocFails] using hr

theorem forkOk_move (h : Move s t) (hi : ∀ p, SlotOk s p) (hf : ForkOk s) : ForkOk t := by
  -- A slot in `s` that a `fork` of `s` has allocated stays `USED` while that `fork` goes on.
  have keep : ∀ p np, (s.pc p).forking = some np → (t.pc p).forking = some np →
      (t.proc np).state = .USED := by
    intro p np hp hp'
    have hu := hf.used p np hp
    have hk := ((hi np).pc_of_used hu).1
    cases procMove_of_move h np with
    | same h | link _ _ _ _ h | reparent _ _ _ _ _ h | tidy _ _ h => simp [h, hu]
    | alloc p' hk' hu' h => simp [h]
    | allocFails hu' h => simp [hu'] at hu
    | run p' hk' hk'' h =>
      have := hf.unique p p' np hp (by rw [hk']; rfl)
      subst this
      simp [hk'', Pc.forking] at hp'
    | wakeup p' ch k' hl hg h =>
      rcases wakeup1_state ch (s.proc np) with e | ⟨e, -⟩
      · rw [h, e, hu]
      · simp [hu] at e
    | reap p' b hk' hp'' hz h => simp [hz] at hu
    | zombie _ hk' | sleep _ hk' => simp [hk] at hk'
    | kill p' pid hk' hl hp'' h =>
      rcases kill1_state (s.proc np) with e | ⟨e, -⟩
      · rw [h, e, hu]
      · simp [hu] at e
    | preempt hy hk' h => simp [hk, Pc.interruptible] at hk'
    | schedule hr h => simp [hr] at hu
  constructor
  · intro p np hp
    rcases forking_of_move h hp with hp' | ⟨-, hu, -⟩
    · exact keep p np hp' hp
    · exact hu
  · intro p q np hp hq
    rcases forking_of_move h hp with hp' | ⟨hu, -, honly⟩
    · rcases forking_of_move h hq with hq' | ⟨hu, -⟩
      · exact hf.unique p q np hp' hq'
      · simp [hf.used p np hp'] at hu
    · by_contra hne
      have := hf.used q np (honly q (Ne.symm hne) hq)
      simp [hu] at this

theorem control_move (h : Move s t) (hc : Control s) : Control t :=
  ⟨fun r => slotOk_move hc.slot r h hc.fork.used, forkOk_move h hc.slot hc.fork⟩

theorem control_userinit : Control userinit := by
  refine ⟨fun p => ?_, ⟨fun p np h => ?_, fun p q np h => ?_⟩⟩
  · by_cases hp : p = initproc
    · subst hp; constructor <;> decide
    · constructor <;>
        simp [userinit, hp, Pc.holdsWait, Pc.holdsLock, Yield.holdsLock, Yield.allows, Pc.allows,
          Pc.sleeping]
  all_goals
    by_cases hp : p = initproc <;> simp [userinit, hp, Pc.forking] at h

theorem control_reachable (h : Reachable s) : Control s := by
  obtain ⟨as, h⟩ := h
  exact run_induct (fun s a t hs ht => control_move (step_move ht) hs) control_userinit h

end TatakOS.ProcTable
