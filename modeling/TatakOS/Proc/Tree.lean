import TatakOS.Proc.Control

/-!
# The process tree, and wakeups of waiting parents

`Tree` is the invariant behind `exit` and `wait`. A parent pointer refers to a process that is
alive, as a process passes its children to `initproc` before it becomes a zombie (`passed`). A
process that has decided to sleep in `wait` (`Committed`) has no zombie child, except children that
`reparent` has just handed to `initproc` while its `wakeup` is on the way (`Pc.wakesInit`). The
exiting child calls `wakeup` before it is a zombie, and `wait_lock` keeps its parent awake in
between (`woken`).
-/

namespace TatakOS.ProcTable

variable {s t : Kernel} {p q r np : Slot} {k k' : Pc}

/-- Neither `UNUSED` nor just allocated nor a zombie. -/
@[grind =] def ProcState.alive : ProcState → Bool
  | .SLEEPING | .RUNNABLE | .RUNNING => true
  | _ => false

/-- In `exit`, before the process becomes a zombie. -/
@[grind =] def Pc.exiting : Pc → Bool
  | .exitReparent _ _ | .exitWakeInit _ _ _ | .exitWakeParent _ _ _ | .exitZombie _ => true
  | _ => false

/-- `reparent` has dealt with slot `j`. -/
@[grind =] def Pc.passed (j : Slot) : Pc → Bool
  | .exitReparent _ i => j < i
  | .exitWakeInit _ i _ => j ≤ i
  | .exitWakeParent _ _ _ | .exitZombie _ => true
  | _ => false

/-- The scan of `wait` has found no zombie in slot `j`, and goes on or goes to sleep. -/
@[grind =] def Pc.scanned (j : Slot) : Pc → Bool
  | .waitScan i _ => j < i
  | .sleepLock k | .sleepRelease k => k.isWait
  | _ => false

/-- `exit`'s `wakeup(p->parent)` has passed slot `j`. -/
@[grind =] def Pc.wokeParent (j : Slot) : Pc → Bool
  | .exitWakeParent _ _ i => j < i
  | .exitZombie _ => true
  | _ => false

/-- A `wakeup(initproc)` has yet to reach slot `j`. -/
@[grind =] def Pc.wakesInit (j : Slot) : Pc → Bool
  | .exitWakeInit _ _ i => i ≤ j
  | _ => false

/-- The process has released `wait_lock` in order to sleep, and has not been woken. -/
def Committed (s : Kernel) (q : Slot) : Prop :=
  s.pc q = .sleepSet .wait ∨ s.pc q = .sleepSched .wait ∨
    s.pc q = .asleep .wait ∧ (s.proc q).state = .SLEEPING

structure Tree (s : Kernel) : Prop where
  init_alive : (s.proc initproc).state.alive = true
  exit_ne_init : ∀ p, (s.pc p).exiting = true → p ≠ initproc
  parent_alive : ∀ q r, (s.proc q).parent = some r → (s.proc r).state.alive = true
  has_parent : ∀ q, q ≠ initproc →
    (s.proc q).state.alive = true ∨ (s.proc q).state = .ZOMBIE → (s.proc q).parent ≠ none
  linked : ∀ p np, s.pc p = .forkRun np → (s.proc np).parent = some p
  passed : ∀ p j, (s.pc p).passed j = true → (s.proc j).parent ≠ some p
  wake_chan : ∀ p status ch j, s.pc p = .exitWakeParent status ch j →
    ch = (s.proc p).parent.map .proc
  scanned : ∀ p j, (s.pc p).scanned j = true → (s.proc j).parent = some p →
    (s.proc j).state ≠ .ZOMBIE
  woken : ∀ p q, (s.pc p).wokeParent q = true → (s.proc p).parent = some q → ¬ Committed s q
  committed : ∀ q c, Committed s q → (s.proc c).parent = some q → (s.proc c).state = .ZOMBIE →
    q = initproc ∧ ∃ e, (s.pc e).wakesInit q = true

/-! ## Who holds `wait_lock` -/

theorem Pc.holdsWait_of_exiting (h : k.exiting = true) : k.holdsWait = true := by
  cases k <;> simp_all [Pc.exiting, Pc.holdsWait]

variable {j : Slot}

theorem Pc.exiting_of_passed (h : k.passed j = true) : k.exiting = true := by
  cases k <;> simp_all [Pc.exiting, Pc.passed]

theorem Pc.exiting_of_wokeParent (h : k.wokeParent j = true) : k.exiting = true := by
  cases k <;> simp_all [Pc.exiting, Pc.wokeParent]

theorem Pc.holdsWait_of_scanned (h : k.scanned j = true) : k.holdsWait = true := by
  cases k <;> simp_all [Pc.scanned, Pc.holdsWait]

/-- At most one process is in a part of the code that holds `wait_lock`. -/
theorem Control.wait_unique (hc : Control s) (hp : (s.pc p).holdsWait = true)
    (hq : (s.pc q).holdsWait = true) : p = q := by
  have h := ((hc.slot p).wait.mpr hp).symm.trans ((hc.slot q).wait.mpr hq)
  exact Option.some.inj h

theorem Control.alive_of_pc (hc : Control s) (hy : s.yield p = .none)
    (hk : (s.pc p).allows .RUNNING = true) : (s.proc p).state.alive = true := by
  have h := (hc.slot p).allows hy
  generalize s.pc p = k, (s.proc p).state = x at *
  cases k <;> simp_all [Pc.allows, ProcState.alive]

/-! ## States -/

theorem alive_of_move (h : Move s t) (ha : (s.proc q).state.alive = true)
    (hk : ∀ status, s.pc q ≠ .exitZombie status) : (t.proc q).state.alive = true := by
  cases procMove_of_move h q with
  | same h | link _ _ _ _ h | reparent _ _ _ _ _ h | tidy _ _ h => rw [h]; exact ha
  | alloc p hk hu h | allocFails hu h => simp [hu, ProcState.alive] at ha
  | run _ _ _ h | sleep _ _ _ h | preempt _ _ h | schedule _ h => rw [h]; rfl
  | wakeup p ch k' hl hg h =>
    rw [h]
    rcases wakeup1_state ch (s.proc q) with e | ⟨-, e⟩ <;> rw [e]
    · exact ha
    · rfl
  | zombie status hk' hy h => exact absurd hk' (hk status)
  | reap p b hk hp hz h => simp [hz, ProcState.alive] at ha
  | kill p pid hk hl hp h =>
    rw [h]
    rcases kill1_state (s.proc q) with e | ⟨-, e⟩ <;> rw [e]
    · exact ha
    · rfl

/-- A parent pointer changes only in `fork` and `reparent`, or is cleared. -/
theorem parent_of_move (h : Move s t) (hp : (t.proc q).parent = some r) :
    (s.proc q).parent = some r ∨ (s.pc r = .forkLink q ∧ t.pc r = .forkRun q ∧ s.waitLock = none) ∨
      r = initproc ∧ ∃ p status, s.pc p = .exitReparent status q ∧
        t.pc p = .exitWakeInit status q 0 := by
  cases procMove_of_move h q with
  | same h | alloc _ _ _ h | run _ _ _ h | zombie _ _ _ h | sleep _ _ _ h | tidy _ _ h
  | preempt _ _ h | schedule _ h => left; rwa [h] at hp
  | allocFails hu h | reap p b hk hp' hz h => simp [h, freeproc] at hp
  | link p hk hk' hw h =>
    obtain rfl : p = r := by simpa [h] using hp
    exact .inr (.inl ⟨hk, hk', hw⟩)
  | reparent p status hk hk' hp' h =>
    obtain rfl : initproc = r := by simpa [h] using hp
    exact .inr (.inr ⟨rfl, p, status, hk, hk'⟩)
  | wakeup p ch k' hl hg h | kill p pid hk hl hp' h => left; rw [h] at hp; simpa using hp

theorem zombie_of_move (h : Move s t) (hz : (t.proc q).state = .ZOMBIE) :
    (s.proc q).state = .ZOMBIE ∨ ∃ status, s.pc q = .exitZombie status := by
  cases procMove_of_move h q with
  | same h | link _ _ _ _ h | reparent _ _ _ _ _ h | tidy _ _ h => left; rwa [h] at hz
  | wakeup p ch _ _ _ h => exact .inl (state_of_woken (wakeup1_state ch _) (h ▸ hz) (by simp))
  | kill _ _ _ _ _ h => exact .inl (state_of_woken (kill1_state _) (h ▸ hz) (by simp))
  | zombie status hk hy h => exact .inr ⟨status, hk⟩
  | reap p b hk hp' hz' h => exact .inl hz'
  | alloc _ _ _ h | allocFails _ h | run _ _ _ h | sleep _ _ _ h | preempt _ _ h
  | schedule _ h => simp [h, freeproc] at hz

theorem sleeping_of_move (h : Move s t) (hz : (t.proc q).state = .SLEEPING) :
    (s.proc q).state = .SLEEPING ∨ ∃ k, s.pc q = .sleepSet k := by
  cases procMove_of_move h q with
  | same h | link _ _ _ _ h | reparent _ _ _ _ _ h | tidy _ _ h => left; rwa [h] at hz
  | wakeup p ch _ _ _ h => exact .inl (state_of_woken (wakeup1_state ch _) (h ▸ hz) (by simp))
  | kill _ _ _ _ _ h => exact .inl (state_of_woken (kill1_state _) (h ▸ hz) (by simp))
  | sleep k hk hy h => exact .inr ⟨k, hk⟩
  | alloc _ _ _ h | allocFails _ h | run _ _ _ h | zombie _ _ _ h | reap _ _ _ _ _ h
  | preempt _ _ h | schedule _ h => simp [h, freeproc] at hz

/-! ## Program counters -/

/-- Nothing in `Tree` speaks of this program counter. -/
@[grind =] def Pc.quiet : Pc → Bool
  | .dead | .newborn | .forkret | .user | .forkScan _ | .forkLink _ | .exitRelease | .exitSched
  | .waitReturn | .sleepTidy _ | .sleepReacquire _ | .killScan _ _ | .wakeScan _ _ => true
  | _ => false

/-- What a move does to the program counter of `p`. -/
inductive PcMove (s t : Kernel) (p : Slot) : Prop
  | same (h : t.pc p = s.pc p)
  | quiet (h : (t.pc p).quiet = true) (hs : ∀ j, (s.pc p).wakesInit j = false)
  | goto (h : Goto s p (s.pc p) (t.pc p)) (hp : t.proc = s.proc)
  | takeWait (h : TakeWait p (s.pc p) (t.pc p))
  | wakeup (j : Slot) (ch : Option Chan) (h : WakeAt j ch (s.pc p) (t.pc p))
    (hl : s.lock j = false) (hp : t.proc j = wakeup1 ch (s.proc j)) (hk : t.pc j = s.pc j)
  | reparent (pp : Slot) (status : ℤ) (hk : s.pc p = .exitReparent status pp)
    (hk' : t.pc p = .exitWakeInit status pp 0) (hp : (t.proc pp).parent = some initproc)
  | sleepLock (k : Sleep) (hk : s.pc p = .sleepLock k) (hk' : t.pc p = .sleepRelease k)
  | sleepRelease (k : Sleep) (hk : s.pc p = .sleepRelease k) (hk' : t.pc p = .sleepSet k)
    (hp : t.proc = s.proc)
  | sleepSet (k : Sleep) (hk : s.pc p = .sleepSet k) (hk' : t.pc p = .sleepSched k)
  | sleepSched (k : Sleep) (hk : s.pc p = .sleepSched k) (hk' : t.pc p = .asleep k)
  | link (np : Slot) (hk : s.pc p = .forkLink np) (hk' : t.pc p = .forkRun np)
    (hp : (t.proc np).parent = some p)

theorem pcMove_of_move (h : Move s t) (hc : Control s) (r : Slot) : PcMove s t r := by
  by_cases e : t.pc r = s.pc r
  · exact .same e
  cases h with
  | goto p k' hy hg =>
    obtain rfl := eq_of_update_ne e
    exact .goto (by simpa using hg) rfl
  | takeWait p k' hy hw hg =>
    obtain rfl := eq_of_update_ne e
    exact .takeWait (by simpa using hg)
  | dropWait p k' hy hg =>
    obtain rfl := eq_of_update_ne e
    generalize hk : s.pc r = k at hg
    cases hg with
    | exit | wait => exact .quiet (by simp [Pc.quiet]) (by simp [hk, Pc.wakesInit])
    | sleep => exact .sleepRelease .wait hk (by simp) rfl
  | unlock p k' hy hg =>
    obtain rfl := eq_of_update_ne e
    generalize hk : s.pc r = k at hg
    cases hg with
    | forkret | exit => exact .quiet (by simp [Pc.quiet]) (by simp [hk, Pc.wakesInit])
    | sleep k => exact .sleepSched k hk (by simp)
  | sleepLock p k hy hk hl =>
    obtain rfl := eq_of_update_ne e
    exact .sleepLock k hk (by simp)
  | alloc p np hy hk hl hu =>
    rcases eq_or_ne r p with rfl | e1
    · exact .quiet (by simp [Pc.quiet]) (by simp [hk, Pc.wakesInit])
    rcases eq_or_ne r np with rfl | e2
    · have hk' := ((hc.slot r).pc_of_unused hu).1
      exact .quiet (by simp [allocproc_eq, e1, Pc.quiet]) (by simp [hk', Pc.wakesInit])
    · exact .same (by simp [allocproc_eq, e1, e2])
  | forkLink p np hy hk hw =>
    obtain rfl := eq_of_update_ne e
    exact .link np hk (by simp) (by simp)
  | reparent p pp status hy hk h =>
    obtain rfl := eq_of_update_ne e
    exact .reparent pp status hk (by simp) (by simp)
  | wakeup p j ch k' hy hj hl hg =>
    obtain rfl := eq_of_update_ne e
    exact .wakeup j ch (by simpa using hg) hl (by simp) (by simp [hj])
  | sleepSet p k hy hk =>
    obtain rfl := eq_of_update_ne e
    exact .sleepSet k hk (by simp)
  | schedule p hy hl hr =>
    obtain ⟨-, hk⟩ := (hc.slot p).pc_of_runnable hr hl hy
    obtain rfl := eq_of_update_ne e
    rcases hk with hk | ⟨k, hk⟩ <;>
      exact .quiet (by simp [hk, Pc.resume, Pc.quiet]) (by simp [hk, Pc.wakesInit])
  | yieldSched | yieldBack | preempt | scheduleYield => exact absurd rfl e
  | allocFails p np hy hk | forkRun p np hy hk | zombie p status hy hk | reap p np b hy hk
  | copyoutFailed p np b hy hk | sleepTidy p k hy hk | kill p q pid hy hk =>
    obtain rfl := eq_of_update_ne e
    exact .quiet (by simp [Pc.quiet]) (by simp [hk, Pc.wakesInit])

/-! ## Every move keeps the tree -/

section Keep

variable (h : Move s t) (hc : Control s) (ht : Tree s)

include h hc ht

theorem exit_ne_init_move (hk : (t.pc p).exiting = true) : p ≠ initproc := by
  cases pcMove_of_move h hc p with
  | same e => exact ht.exit_ne_init p (e ▸ hk)
  | quiet e => generalize t.pc p = k at *; cases k <;> simp_all [Pc.quiet, Pc.exiting]
  | goto e hp | wakeup j ch e =>
    refine ht.exit_ne_init p ?_
    generalize s.pc p = k, t.pc p = k' at *
    cases e <;> simp_all [Pc.exiting]
  | takeWait e =>
    generalize s.pc p = k, t.pc p = k' at *
    cases e <;> simp_all [Pc.exiting]
  | reparent pp status e => exact ht.exit_ne_init p (by rw [e]; rfl)
  | sleepLock k _ e | sleepRelease k _ e | sleepSet k _ e | sleepSched k _ e | link np _ e =>
    simp [e, Pc.exiting] at hk

omit hc in
theorem init_alive_move : (t.proc initproc).state.alive = true := by
  refine alive_of_move h ht.init_alive fun status e => ?_
  exact ht.exit_ne_init initproc (by rw [e]; rfl) rfl

theorem parent_alive_move (hp : (t.proc q).parent = some r) : (t.proc r).state.alive = true := by
  rcases parent_of_move h hp with hs | ⟨hk, hk', -⟩ | ⟨rfl, -⟩
  · refine alive_of_move h (ht.parent_alive q r hs) fun status e => ?_
    exact ht.passed r q (by rw [e]; rfl) hs
  · refine alive_of_move h ?_ fun status e => by simp [hk] at e
    have hy : (s.yield r).allows (s.pc r) (s.proc r).state = true := (hc.slot r).state
    rw [hk] at hy
    generalize s.yield r = y, (s.proc r).state = x at hy
    cases y <;> simp_all [Yield.allows, Pc.allows, ProcState.alive]
  · exact init_alive_move h ht

theorem has_parent_move (hq : q ≠ initproc)
    (ha : (t.proc q).state.alive = true ∨ (t.proc q).state = .ZOMBIE) :
    (t.proc q).parent ≠ none := by
  have hs := ht.has_parent q hq
  cases procMove_of_move h q with
  | same e | tidy k hk e => rw [e] at ha ⊢; exact hs ha
  | alloc p hk hu e => simp [e, ProcState.alive] at ha
  | allocFails hu e | reap p b hk hp hz e => simp [e, freeproc, ProcState.alive] at ha
  | link p hk hk' hw e => simp [e]
  | run p hk hk' e => simp [e, ht.linked p q hk]
  | reparent p status hk _ hp e => simp [e]
  | wakeup p ch k' hl hg e =>
    rw [e] at ha ⊢
    rw [wakeup1_parent]
    rcases wakeup1_state ch (s.proc q) with e' | ⟨e', -⟩
    · rw [e'] at ha; exact hs ha
    · exact hs (.inl (by rw [e']; rfl))
  | zombie status hk hy e | sleep k hk hy e =>
    rw [e]
    exact hs (.inl (hc.alive_of_pc hy (by rw [hk]; rfl)))
  | kill p pid hk hl hp e =>
    rw [e] at ha ⊢
    rw [kill1_parent]
    rcases kill1_state (s.proc q) with e' | ⟨e', -⟩
    · rw [e'] at ha; exact hs ha
    · exact hs (.inl (by rw [e']; rfl))
  | preempt hy hk e =>
    rw [e]
    exact hs (.inl (hc.alive_of_pc hy (Pc.interruptible_control hk).2))
  | schedule hr e => rw [e]; exact hs (.inl (by rw [hr]; rfl))

theorem linked_move (hk : t.pc p = .forkRun np) : (t.proc np).parent = some p := by
  cases pcMove_of_move h hc p with
  | same e =>
    rw [hk] at e
    have hl := ht.linked p np e.symm
    have hu := hc.fork.used p np (by rw [← e]; rfl)
    cases procMove_of_move h np with
    | same e' => rw [e', hl]
    | alloc p' hk' hu' e' => simp [hu] at hu'
    | allocFails hu' e' => simp [hu] at hu'
    | link p' hk' _ hw e' =>
      have := hc.fork.unique p p' np (by rw [← e]; rfl) (by rw [hk']; rfl)
      rw [e', this]
    | reparent p' status hk' _ hp e' =>
      obtain rfl : p = p' := by simpa [hl] using hp
      simp [hk'] at e
    | reap p' b hk' hp hz e' => simp [hu] at hz
    | wakeup p' ch k' hl' hg e' => rw [e', wakeup1_parent, hl]
    | kill p' pid hk' hl' hp e' => rw [e', kill1_parent, hl]
    | run _ _ _ e' | zombie _ _ _ e' | sleep _ _ _ e' | tidy _ _ e' | preempt _ _ e'
    | schedule _ e' => rw [e']; exact hl
  | quiet e => simp [hk, Pc.quiet] at e
  | goto e | takeWait e | wakeup j ch e => rw [hk] at e; generalize s.pc p = k at e; cases e
  | reparent pp status _ e | sleepLock k _ e | sleepRelease k _ e | sleepSet k _ e
  | sleepSched k _ e => simp [hk] at e
  | link np' _ e hp =>
    obtain rfl : np = np' := by simpa [hk] using e
    exact hp

theorem passed_move (hk : (t.pc p).passed j = true) : (t.proc j).parent ≠ some p := by
  have hi := exit_ne_init_move h hc ht (Pc.exiting_of_passed hk)
  intro hp
  -- A pointer to `p` would be an old one, and then slot `j` has only now been passed.
  have hs : (s.proc j).parent = some p := by
    rcases parent_of_move h hp with hs | ⟨-, hk', -⟩ | ⟨e, -⟩
    · exact hs
    · simp [hk', Pc.passed] at hk
    · exact absurd e hi
  have hn : (s.pc p).passed j ≠ true := fun hk' => ht.passed p j hk' hs
  cases pcMove_of_move h hc p with
  | same e => exact hn (e ▸ hk)
  | quiet e => generalize t.pc p = k at *; cases k <;> simp_all [Pc.quiet, Pc.passed]
  | goto e _ =>
    generalize hks : s.pc p = k, t.pc p = k' at *
    cases e with
    | reparentNext status i hne =>
      have : j = i := by
        simp only [Pc.passed, ne_eq, decide_eq_true_eq] at hk hn
        exact Fin.ext (by omega)
      exact hne (this ▸ hs)
    | reparentEnd status i hi => exact hn (by simp only [Pc.passed, decide_eq_true_eq]; omega)
    | wakeInitEnd status i i' hi =>
      exact hn (by simp only [Pc.passed, decide_eq_true_eq] at hk ⊢; omega)
    | wakeInitSelf | wakeParentSelf | wakeParentEnd => exact hn hk
    | _ => simp [Pc.passed] at hk
  | takeWait e => generalize s.pc p = k, t.pc p = k' at *; cases e <;> simp [Pc.passed] at hk
  | wakeup i ch e => generalize s.pc p = k, t.pc p = k' at *; cases e <;> exact hn hk
  | reparent pp status hks hkt hpp =>
    rw [hkt] at hk
    rw [hks] at hn
    have : j = pp := by
      simp only [Pc.passed, ne_eq, decide_eq_true_eq] at hk hn
      exact Fin.ext (by omega)
    rw [this, hpp, Option.some.injEq] at hp
    exact hi hp.symm
  | sleepLock k _ e | sleepRelease k _ e | sleepSet k _ e | sleepSched k _ e | link np _ e =>
    simp [e, Pc.passed] at hk

omit ht in
/-- While `p` is in `wakeup(p->parent)`, nobody changes `p->parent`. -/
theorem parent_of_wokeParent (hk : (s.pc p).exiting = true)
    (hne : ∀ status i, s.pc p ≠ .exitReparent status i) :
    (t.proc p).parent = (s.proc p).parent := by
  have hw := Pc.holdsWait_of_exiting hk
  cases procMove_of_move h p with
  | allocFails hu e => simp [((hc.slot p).pc_of_unused hu).1, Pc.exiting] at hk
  | link p' _ _ hn e => simp [(hc.slot p).wait.mpr hw] at hn
  | reparent p' status hk' _ hp e =>
    obtain rfl := hc.wait_unique (by rw [hk']; rfl) hw
    exact absurd hk' (hne status p')
  | reap p' b hk' hp hz e =>
    obtain rfl := hc.wait_unique (by rw [hk']; rfl) hw
    simp [hk', Pc.exiting] at hk
  | wakeup p' ch k' hl' hg e => rw [e, wakeup1_parent]
  | kill p' pid hk' hl' hp e => rw [e, kill1_parent]
  | same e | alloc _ _ _ e | run _ _ _ e | zombie _ _ _ e | sleep _ _ _ e | tidy _ _ e
  | preempt _ _ e | schedule _ e => rw [e]

theorem wake_chan_move {status : ℤ} {ch : Option Chan} {j : ℕ}
    (hk : t.pc p = .exitWakeParent status ch j) : ch = (t.proc p).parent.map .proc := by
  have keep : ∀ i, s.pc p = .exitWakeParent status ch i → ch = (t.proc p).parent.map .proc := by
    intro i hk'
    rw [parent_of_wokeParent h hc (by rw [hk']; rfl) (by simp [hk'])]
    exact ht.wake_chan p status ch i hk'
  cases pcMove_of_move h hc p with
  | same e => exact keep j (by rw [← e, hk])
  | quiet e => simp [hk, Pc.quiet] at e
  | goto e hp =>
    rw [hk] at e
    generalize hks : s.pc p = k at e
    cases e with
    | reparentEnd status i hi => rw [hp]
    | wakeParentSelf => exact keep _ hks
  | takeWait e => rw [hk] at e; generalize s.pc p = k at e; cases e
  | wakeup i ch' e =>
    rw [hk] at e
    generalize hks : s.pc p = k at e
    cases e with
    | parent => exact keep _ hks
  | reparent pp status _ e | sleepLock k _ e | sleepRelease k _ e | sleepSet k _ e
  | sleepSched k _ e | link np _ e => simp [hk] at e

theorem scanned_move (hk : (t.pc p).scanned j = true)
    (hp : (t.proc j).parent = some p) : (t.proc j).state ≠ .ZOMBIE := by
  intro hz
  have hw := Pc.holdsWait_of_scanned hk
  have key : (s.pc p).scanned j = true → False := by
    intro hk'
    have hw' := Pc.holdsWait_of_scanned hk'
    rcases zombie_of_move h hz with hz' | ⟨status, hz'⟩
    · rcases parent_of_move h hp with hs | ⟨hk'', -⟩ | ⟨rfl, p', status, hk'', -⟩
      · exact ht.scanned p j hk' hs hz'
      · simp [hk'', Pc.scanned] at hk'
      · obtain rfl := hc.wait_unique (by rw [hk'']; rfl) hw'
        simp [hk'', Pc.scanned] at hk'
    · obtain rfl := hc.wait_unique (by rw [hz']; rfl) hw'
      simp [hz', Pc.scanned] at hk'
  cases pcMove_of_move h hc p with
  | same e => exact key (e ▸ hk)
  | quiet e => generalize t.pc p = k at *; cases k <;> simp_all [Pc.quiet, Pc.scanned]
  | goto e hproc =>
    rw [hproc] at hp hz
    generalize hks : s.pc p = k, t.pc p = k' at *
    cases e with
    | waitOther i b hne =>
      by_cases e : j = i
      · exact hne (e ▸ hp)
      · have : (j : ℕ) ≠ i := fun e' => e (Fin.ext e')
        exact key (by simp only [Pc.scanned, decide_eq_true_eq] at hk ⊢; omega)
    | waitChild i b hpar hl hnz =>
      by_cases e : j = i
      · exact hnz (e ▸ hz)
      · have : (j : ℕ) ≠ i := fun e' => e (Fin.ext e')
        exact key (by simp only [Pc.scanned, decide_eq_true_eq] at hk ⊢; omega)
    | waitSleep i b hi => exact key (by simp only [Pc.scanned, decide_eq_true_eq]; omega)
    | _ => simp [Pc.scanned, Sleep.isWait] at hk
  | takeWait e | wakeup i ch e =>
    generalize s.pc p = k, t.pc p = k' at *; cases e <;> simp [Pc.scanned] at hk
  | sleepLock k hk' e => rw [e] at hk; exact key (by rw [hk']; exact hk)
  | reparent pp status _ e | sleepRelease k _ e | sleepSet k _ e | sleepSched k _ e
  | link np _ e => simp [e, Pc.scanned] at hk

/-! ### Sleeping parents -/

omit ht in
theorem committed_of_move (hq : Committed t q) :
    Committed s q ∨ s.pc q = .sleepRelease .wait ∧ t.proc = s.proc := by
  cases pcMove_of_move h hc q with
  | same e =>
    left
    rcases hq with hq | hq | ⟨hq, hs⟩
    · exact .inl (by rw [← e, hq])
    · exact .inr (.inl (by rw [← e, hq]))
    · refine .inr (.inr ⟨by rw [← e, hq], ?_⟩)
      rcases sleeping_of_move h hs with hs' | ⟨k, hk⟩
      · exact hs'
      · simp [← e, hq] at hk
  | quiet e => rcases hq with hq | hq | ⟨hq, -⟩ <;> simp [hq, Pc.quiet] at e
  | goto e | takeWait e | wakeup j ch e =>
    generalize s.pc q = k at e
    rcases hq with hq | hq | ⟨hq, -⟩ <;> rw [hq] at e <;> cases e
  | sleepRelease k hk e hp =>
    right
    rcases hq with hq | hq | ⟨hq, -⟩ <;> simp [hq] at e
    exact ⟨by rw [hk, e], hp⟩
  | sleepSet k hk e =>
    rcases hq with hq | hq | ⟨hq, -⟩ <;> simp [hq] at e
    exact .inl (.inl (by rw [hk, e]))
  | sleepSched k hk e =>
    rcases hq with hq | hq | ⟨hq, -⟩ <;> simp [hq] at e
    exact .inl (.inr (.inl (by rw [hk, e])))
  | reparent pp status _ e | sleepLock k _ e | link np _ e =>
    rcases hq with hq | hq | ⟨hq, -⟩ <;> simp [hq] at e

omit h ht in
/-- A committed process whose lock is free is `SLEEPING` on its own address. -/
theorem Committed.asleep (hq : Committed s q) (hl : s.lock q = false) :
    s.pc q = .asleep .wait ∧ (s.proc q).state = .SLEEPING ∧ (s.proc q).chan = some (.proc q) := by
  have hlock := (hc.slot q).lock
  rw [hl] at hlock
  rcases hq with hq | hq | ⟨hq, hs⟩
  · simp [hq, Pc.holdsLock] at hlock
  · simp [hq, Pc.holdsLock] at hlock
  · refine ⟨hq, hs, ?_⟩
    rw [(hc.slot q).chan, hq]
    rfl

omit ht in
theorem not_committed_wakeup (hl : s.lock j = false)
    (hp : t.proc j = wakeup1 (some (.proc j)) (s.proc j)) (hk : t.pc j = s.pc j) :
    ¬ Committed t j := by
  intro hj
  rcases committed_of_move h hc hj with hj' | ⟨hk', -⟩
  · obtain ⟨hk', hs, hch⟩ := Committed.asleep hc hj' hl
    rcases hj with hj | hj | ⟨-, hj⟩
    · simp [hk, hk'] at hj
    · simp [hk, hk'] at hj
    · simp [hp, wakeup1, hs, hch] at hj
  · have := (hc.slot j).lock
    simp [hl, hk', Pc.holdsLock] at this

theorem woken_move (hk : (t.pc p).wokeParent q = true) (hp : (t.proc p).parent = some q) :
    ¬ Committed t q := by
  intro hq
  have hex := Pc.exiting_of_wokeParent hk
  -- If the wakeup had passed `q` before, `q` could only have committed with `wait_lock`.
  have old : (s.pc p).wokeParent q = true → False := by
    intro hk'
    have hex' := Pc.exiting_of_wokeParent hk'
    have hp' : (s.proc p).parent = some q := by
      rw [← parent_of_wokeParent h hc hex' (fun st i e => by simp [e, Pc.wokeParent] at hk'), hp]
    rcases committed_of_move h hc hq with hq' | ⟨hq', -⟩
    · exact ht.woken p q hk' hp' hq'
    · obtain rfl := hc.wait_unique (q := q) (Pc.holdsWait_of_exiting hex') (by rw [hq']; rfl)
      simp [hq', Pc.exiting] at hex'
  cases pcMove_of_move h hc p with
  | same e => exact old (e ▸ hk)
  | quiet e => generalize t.pc p = k at *; cases k <;> simp_all [Pc.quiet, Pc.wokeParent]
  | goto e hproc =>
    generalize hks : s.pc p = k, hkt : t.pc p = k' at *
    cases e with
    | wakeParentSelf status ch =>
      by_cases e : q = p
      · subst e
        rcases hq with hq | hq | ⟨hq, -⟩ <;> simp [hq] at hkt
      · have : (q : ℕ) ≠ p := fun e' => e (Fin.ext e')
        exact old (by simp only [Pc.wokeParent, decide_eq_true_eq] at hk ⊢; omega)
    | wakeParentEnd status ch j hj =>
      exact old (by simp only [Pc.wokeParent, decide_eq_true_eq]; omega)
    | _ => simp [Pc.wokeParent] at hk
  | takeWait e => generalize s.pc p = k, t.pc p = k' at *; cases e <;> simp [Pc.wokeParent] at hk
  | wakeup j ch e hl hproc hpc =>
    generalize hks : s.pc p = k, hkt : t.pc p = k' at *
    cases e with
    | init status i | other a => simp [Pc.wokeParent] at hk
    | parent status ch =>
      by_cases e : q = j
      · subst e
        have hch := wake_chan_move h hc ht hkt
        rw [hp] at hch
        rw [hch] at hproc
        exact not_committed_wakeup h hc hl hproc hpc hq
      · have : (q : ℕ) ≠ j := fun e' => e (Fin.ext e')
        exact old (by simp only [Pc.wokeParent, decide_eq_true_eq] at hk ⊢; omega)
  | reparent pp status _ e | sleepLock k _ e | sleepRelease k _ e | sleepSet k _ e
  | sleepSched k _ e | link np _ e => simp [e, Pc.wokeParent] at hk

/-- A `wakeup(initproc)` that has yet to reach `q` stays so until it wakes `q`. -/
theorem wakesInit_move {e : Slot} (hq : Committed t q) (hi : q = initproc)
    (he : (s.pc e).wakesInit q = true) : (t.pc e).wakesInit q = true := by
  have hne : (q : ℕ) ≠ e := by
    intro e'
    refine ht.exit_ne_init e ?_ ((Fin.ext e').symm.trans hi)
    generalize s.pc e = k at he
    cases k <;> simp_all [Pc.wakesInit, Pc.exiting]
  cases pcMove_of_move h hc e with
  | same e' => rw [e']; exact he
  | goto e' hp =>
    generalize s.pc e = k, t.pc e = k' at *
    cases e' with
    | wakeInitSelf status i =>
      simp only [Pc.wakesInit, decide_eq_true_eq] at he ⊢
      omega
    | wakeInitEnd status i j hj =>
      simp only [Pc.wakesInit, decide_eq_true_eq] at he
      omega
    | _ => simp [Pc.wakesInit] at he
  | wakeup j ch e' hl hproc hpc =>
    generalize s.pc e = k, t.pc e = k' at *
    cases e' with
    | init status i =>
      by_cases hj : j = q
      · subst hj
        rw [← hi] at hproc
        exact absurd hq (not_committed_wakeup h hc hl hproc hpc)
      · have : (j : ℕ) ≠ q := fun e' => hj (Fin.ext e')
        simp only [Pc.wakesInit, decide_eq_true_eq] at he ⊢
        omega
    | parent | other => simp [Pc.wakesInit] at he
  | quiet _ hk => simp [hk] at he
  | takeWait e' => generalize s.pc e = k, t.pc e = k' at *; cases e' <;> simp [Pc.wakesInit] at he
  | reparent _ _ hk | sleepLock _ hk | sleepRelease _ hk | sleepSet _ hk | sleepSched _ hk
  | link _ hk => simp [hk, Pc.wakesInit] at he

theorem committed_move {c : Slot} (hq : Committed t q) (hp : (t.proc c).parent = some q)
    (hz : (t.proc c).state = .ZOMBIE) :
    q = initproc ∧ ∃ e, (t.pc e).wakesInit q = true := by
  rcases committed_of_move h hc hq with hq' | ⟨hk, hproc⟩
  · rcases zombie_of_move h hz with hz' | ⟨status, hz'⟩
    · rcases parent_of_move h hp with hs | ⟨hk', -⟩ | ⟨rfl, p', status, -, hk'⟩
      · obtain ⟨hi, e, he⟩ := ht.committed q c hq' hs hz'
        exact ⟨hi, e, wakesInit_move h hc ht hq hi he⟩
      · rcases hq' with hq' | hq' | ⟨hq', -⟩ <;> simp [hq'] at hk'
      · exact ⟨rfl, p', by simp [hk', Pc.wakesInit]⟩
    · have hp' : (s.proc c).parent = some q := by
        rw [← parent_of_wokeParent h hc (by rw [hz']; rfl) (by simp [hz']), hp]
      exact absurd hq' (ht.woken c q (by rw [hz']; rfl) hp')
  · rw [hproc] at hp hz
    exact absurd hz (ht.scanned q c (by rw [hk]; rfl) hp)

theorem tree_move : Tree t where
  init_alive := init_alive_move h ht
  exit_ne_init _ := exit_ne_init_move h hc ht
  parent_alive _ _ := parent_alive_move h hc ht
  has_parent _ := has_parent_move h hc ht
  linked _ _ := linked_move h hc ht
  passed _ _ := passed_move h hc ht
  wake_chan _ _ _ _ := wake_chan_move h hc ht
  scanned _ _ := scanned_move h hc ht
  woken _ _ := woken_move h hc ht
  committed _ _ := committed_move h hc ht

end Keep

theorem tree_userinit : Tree userinit := by
  have hpc : ∀ p, userinit.pc p = .newborn ∨ userinit.pc p = .dead := by
    intro p
    by_cases hp : p = initproc <;> simp [userinit, hp]
  have hpar : ∀ p, (userinit.proc p).parent = none := by
    intro p
    by_cases hp : p = initproc <;> simp [userinit, hp]
  have hst : ∀ p, p ≠ initproc → (userinit.proc p).state = .UNUSED := by
    intro p hp
    simp [userinit, hp]
  constructor
  · rfl
  · intro p h; rcases hpc p with e | e <;> simp [e, Pc.exiting] at h
  · intro q r h; simp [hpar] at h
  · intro q hq h; simp [hst q hq, ProcState.alive] at h
  · intro p np h; rcases hpc p with e | e <;> simp [e] at h
  · intro p j h; simp [hpar]
  · intro p status ch j h; rcases hpc p with e | e <;> simp [e] at h
  · intro p j _ h; simp [hpar] at h
  · intro p q _ h; simp [hpar] at h
  · intro q c _ h; simp [hpar] at h

theorem tree_reachable (h : Reachable s) : Tree s := by
  obtain ⟨as, h⟩ := h
  have := run_induct (I := fun s => Control s ∧ Tree s)
    (fun s a t hs ht => ⟨control_move (step_move ht) hs.1, tree_move (step_move ht) hs.1 hs.2⟩)
    ⟨control_userinit, tree_userinit⟩ h
  exact this.2

end TatakOS.ProcTable
