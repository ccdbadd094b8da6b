import TatakOS.Proc.Tree

/-!
# Each exit is collected once

`Life.next` is an automaton that reads the history of one slot: allocated by a `fork`, then a
zombie, then reaped exactly once, with the pid and the status of that exit, by the process that
forked it or by `initproc`; a `wait` whose `copyout` fails leaves the zombie as it is. The automaton
never fails, and its state agrees with the process table.
-/

namespace TatakOS.ProcTable

variable {s t : Kernel} {p q r np : Slot} {k k' : Pc} {l : Life}

/-- What the history says about a slot. -/
inductive Life
  | absent
  | live (forker : Slot) (pid : ℤ)
  | zombie (forker : Slot) (pid status : ℤ)
  deriving DecidableEq, Repr

/-- The events of slot `q`; `none` is a history that must not happen. -/
def Life.next (q : Slot) (l : Life) : Event → Option Life
  | .forked p np pid =>
    if np = q then if l = .absent then some (.live p pid) else none else some l
  | .exited p pid status =>
    if p = q then
      match l with
      | .live f pid' => if pid = pid' then some (.zombie f pid status) else none
      | _ => none
    else some l
  | .reaped p np pid status =>
    if np = q then
      match l with
      | .zombie f pid' status' =>
        if pid = pid' ∧ status = status' ∧ (p = f ∨ p = initproc) then some .absent else none
      | _ => none
    else some l
  | .copyoutFailed p np =>
    if np = q then
      match l with
      | .zombie f _ _ => if p = f ∨ p = initproc then some l else none
      | _ => none
    else some l
  | .killed .. => some l

/-- The life of slot `q` after a history; `initproc` is alive from the start. -/
def lifeOf (q : Slot) (history : List Event) : Option Life :=
  run (Life.next q) (if q = initproc then .live initproc 1 else .absent) history

/-- The process table agrees with the history. -/
def Life.Fits : Life → Proc → Prop
  | .absent, x => x.state = .UNUSED ∧ x.parent = none
  | .live f pid, x => x.state ≠ .UNUSED ∧ x.state ≠ .ZOMBIE ∧ x.pid = pid ∧
    ∀ r, x.parent = some r → r = f ∨ r = initproc
  | .zombie f pid status, x => x.state = .ZOMBIE ∧ x.pid = pid ∧ x.xstate = status ∧
    ∀ r, x.parent = some r → r = f ∨ r = initproc

/-- The history of slot `q` is a legal one and agrees with the process table. -/
def HistOk (s : Kernel) (q : Slot) : Prop :=
  ∃ l, lifeOf q s.history = some l ∧ l.Fits (s.proc q) ∧
    ∀ p, (s.pc p).forking = some q → ∃ pid, l = .live p pid

theorem lifeOf_snoc {history : List Event} {e : Event} (h : lifeOf q history = some l) :
    lifeOf q (history ++ [e]) = l.next q e := by
  unfold lifeOf at *
  rw [run_append, h]
  cases hn : l.next q e <;> simp [run, hn]

theorem Life.Fits.absent_of_unused {x : Proc} (h : l.Fits x) (hu : x.state = .UNUSED) :
    l = .absent ∧ x.parent = none := by
  cases l <;> simp_all [Life.Fits]

theorem Life.Fits.zombie_of_zombie {x : Proc} (h : l.Fits x) (hz : x.state = .ZOMBIE) :
    ∃ f, l = .zombie f x.pid x.xstate ∧ ∀ r, x.parent = some r → r = f ∨ r = initproc := by
  cases l <;> simp_all [Life.Fits]

theorem Life.Fits.live_of_alive {x : Proc} (h : l.Fits x) (hu : x.state ≠ .UNUSED)
    (hz : x.state ≠ .ZOMBIE) :
    ∃ f, l = .live f x.pid ∧ ∀ r, x.parent = some r → r = f ∨ r = initproc := by
  cases l <;> simp_all [Life.Fits]

theorem Life.Fits.update {x x' : Proc} (h : l.Fits x)
    (hu : x'.state = .UNUSED ↔ x.state = .UNUSED) (hz : x'.state = .ZOMBIE ↔ x.state = .ZOMBIE)
    (hpid : x'.pid = x.pid) (hxs : x'.xstate = x.xstate)
    (hp : x'.parent = x.parent ∨ x'.parent = some initproc ∧ x.parent ≠ none) : l.Fits x' := by
  cases l with
  | absent => rcases hp with hp | ⟨-, hp⟩ <;> simp_all [Life.Fits]
  | live f pid | zombie f pid status => rcases hp with hp | ⟨hp, -⟩ <;> simp_all [Life.Fits]

/-! ## Every move keeps the history legal -/

/-- A move that records nothing about `q` and changes nothing its life sees. -/
theorem HistOk.frame (h : Move s t) (hq : HistOk s q) (hh : ∀ l, lifeOf q s.history = some l →
      lifeOf q t.history = some l)
    (hf : ∀ l : Life, l.Fits (s.proc q) →
      (∀ p, (s.pc p).forking = some q → ∃ pid, l = .live p pid) → l.Fits (t.proc q))
    (hu : (s.proc q).state = .UNUSED → (t.proc q).state ≠ .USED) : HistOk t q := by
  obtain ⟨l, hl, hfit, hfork⟩ := hq
  refine ⟨l, hh l hl, hf l hfit hfork, fun p hp => ?_⟩
  rcases forking_of_move h hp with hp' | ⟨hs, ht, -⟩
  · exact hfork p hp'
  · exact absurd ht (hu hs)

theorem HistOk.frame_proc (h : Move s t) (hq : HistOk s q) (hh : t.history = s.history)
    (hp : t.proc q = s.proc q) : HistOk t q :=
  hq.frame h (fun l hl => hh ▸ hl) (fun l hl _ => hp ▸ hl) (fun hu => by simp [hp, hu])

theorem HistOk.frame_event {e : Event} (h : Move s t) (hq : HistOk s q)
    (hh : t.history = s.history ++ [e]) (he : ∀ l, Life.next q l e = some l)
    (hp : t.proc q = s.proc q) : HistOk t q :=
  hq.frame h (fun l hl => by rw [hh, lifeOf_snoc hl, he]) (fun l hl _ => hp ▸ hl)
    (fun hu => by simp [hp, hu])

section Keep

variable (h : Move s t) (hc : Control s) (hi : ∀ q, HistOk s q)

include h hc hi

theorem histOk_alloc (hu : (s.proc np).state = .UNUSED)
    (ht : t = ((allocproc s np).setPc p (.forkLink np)).record (.forked p np s.nextpid)) :
    HistOk t q := by
  obtain ⟨l, hl, hfit, hfork⟩ := hi q
  have hpc : (t.pc p).forking = some np := by simp [ht, Pc.forking]
  have hh : lifeOf q t.history = l.next q (.forked p np s.nextpid) := by
    rw [ht]; exact lifeOf_snoc hl
  rcases eq_or_ne np q with rfl | e
  · obtain ⟨rfl, hpar⟩ := hfit.absent_of_unused hu
    refine ⟨.live p s.nextpid, by simpa [Life.next] using hh, ?_, fun p' hp' => ?_⟩
    · simp [Life.Fits, ht, allocproc_eq, hpar]
    · exact ⟨s.nextpid, by rw [(control_move h hc).fork.unique p' p np hp' hpc]⟩
  · exact (hi q).frame_event h (by rw [ht]; rfl) (by simp [Life.next, e])
      (by simp [ht, allocproc_eq, e.symm])

theorem histOk_zombie {status : ℤ} (hy : s.yield p = .none) (hk : s.pc p = .exitZombie status)
    (ht : t = (((s.setLock p true).setProc p
      { s.proc p with xstate := status, state := .ZOMBIE }).setPc p .exitRelease).record
        (.exited p (s.proc p).pid status)) : HistOk t q := by
  obtain ⟨l, hl, hfit, hfork⟩ := hi q
  have hh : lifeOf q t.history = l.next q (.exited p (s.proc p).pid status) := by
    rw [ht]; exact lifeOf_snoc hl
  rcases eq_or_ne p q with rfl | e
  · have hrun : (s.proc p).state = .RUNNING := by
      simpa [hk, Pc.allows] using (hc.slot p).allows hy
    obtain ⟨f, rfl, hpar⟩ := hfit.live_of_alive (by simp [hrun]) (by simp [hrun])
    refine ⟨.zombie f (s.proc p).pid status, by simpa [Life.next] using hh, ?_, fun p' hp' => ?_⟩
    · simpa [Life.Fits, ht] using hpar
    · have := (control_move h hc).fork.used p' p hp'
      simp [ht] at this
  · exact (hi q).frame_event h (by rw [ht]; rfl) (by simp [Life.next, e]) (by simp [ht, e.symm])

theorem histOk_reap (hp : (s.proc np).parent = some p) (hz : (s.proc np).state = .ZOMBIE)
    (ht : t = ((s.setProc np freeproc).setPc p .waitReturn).record
      (.reaped p np (s.proc np).pid (s.proc np).xstate)) : HistOk t q := by
  obtain ⟨l, hl, hfit, hfork⟩ := hi q
  have hh : lifeOf q t.history = l.next q (.reaped p np (s.proc np).pid (s.proc np).xstate) := by
    rw [ht]; exact lifeOf_snoc hl
  rcases eq_or_ne np q with rfl | e
  · obtain ⟨f, rfl, hpar⟩ := hfit.zombie_of_zombie hz
    refine ⟨.absent, by simpa [Life.next, hpar p hp] using hh, ?_, fun p' hp' => ?_⟩
    · simp [Life.Fits, ht, freeproc]
    · have := (control_move h hc).fork.used p' np hp'
      simp [ht, freeproc] at this
  · exact (hi q).frame_event h (by rw [ht]; rfl) (by simp [Life.next, e]) (by simp [ht, e.symm])

omit hc in
theorem histOk_copyoutFailed (hp : (s.proc np).parent = some p) (hz : (s.proc np).state = .ZOMBIE)
    (ht : t = (s.setPc p .waitReturn).record (.copyoutFailed p np)) : HistOk t q := by
  refine (hi q).frame h (fun l hl => ?_) (by simp +contextual [ht]) (by simp +contextual [ht])
  obtain ⟨l', hl', hfit, -⟩ := hi q
  obtain rfl : l = l' := by simpa [hl] using hl'
  rw [show t.history = s.history ++ [.copyoutFailed p np] by simp [ht], lifeOf_snoc hl]
  rcases eq_or_ne np q with rfl | e
  · obtain ⟨f, rfl, hpar⟩ := hfit.zombie_of_zombie hz
    simp [Life.next, hpar p hp]
  · simp [Life.next, e]

omit hc in
/-- Moves that record nothing its life reads and change `q` in a way its life does not see. -/
theorem histOk_silent (hu : (t.proc q).state = .UNUSED ↔ (s.proc q).state = .UNUSED := by simp)
    (hz : (t.proc q).state = .ZOMBIE ↔ (s.proc q).state = .ZOMBIE := by simp)
    (hp : (t.proc q).parent = (s.proc q).parent ∨
      (t.proc q).parent = some initproc ∧ (s.proc q).parent ≠ none := by simp)
    (hh : ∀ l, lifeOf q s.history = some l → lifeOf q t.history = some l := by simp)
    (hpid : (t.proc q).pid = (s.proc q).pid := by simp)
    (hxs : (t.proc q).xstate = (s.proc q).xstate := by simp) : HistOk t q := by
  refine (hi q).frame h hh (fun l hl _ => hl.update hu hz hpid hxs hp) ?_
  intro h0 h1
  simp [hu.mpr h0] at h1

end Keep

theorem histOk_move (h : Move s t) (hc : Control s) (hi : ∀ q, HistOk s q) : HistOk t q := by
  have hm := h
  cases h with
  | goto | takeWait | dropWait | unlock | sleepLock | yieldSched | yieldBack =>
    exact (hi q).frame_proc hm rfl rfl
  | alloc p np hy hk hl hu => exact histOk_alloc hm hc hi hu rfl
  | zombie p status hy hk hl => exact histOk_zombie hm hc hi hy hk rfl
  | reap p np b hy hk hp hl hz => exact histOk_reap hm hc hi hp hz rfl
  | copyoutFailed p np b hy hk hp hl hz => exact histOk_copyoutFailed hm hi hp hz rfl
  | allocFails p np hy hk hl hu =>
    refine (hi q).frame hm (by simp [allocprocFails]) ?_ ?_
    · intro l hfit _
      rcases eq_or_ne q np with rfl | e
      · obtain ⟨rfl, -⟩ := hfit.absent_of_unused hu
        simp [Life.Fits, allocprocFails, freeproc]
      · simpa [allocprocFails, e] using hfit
    · rcases eq_or_ne q np with rfl | e
      · simp [allocprocFails, freeproc]
      · simp +contextual [allocprocFails, e]
  | forkLink p np hy hk hw =>
    have hused := hc.fork.used p np (by rw [hk]; rfl)
    refine (hi q).frame hm (by simp) ?_ ?_
    · intro l hl hfork
      rcases eq_or_ne q np with rfl | e
      · obtain ⟨pid, rfl⟩ := hfork p (by rw [hk]; rfl)
        obtain ⟨h1, h2, h3, -⟩ := hl
        simp [Life.Fits, h1, h2, h3]
      · simpa [e] using hl
    · rcases eq_or_ne q np with rfl | e
      · simp [hused]
      · simp +contextual [e]
  | forkRun p np hy hk hl =>
    have hused := hc.fork.used p np (by rw [hk]; rfl)
    rcases eq_or_ne q np with rfl | e
    · exact histOk_silent hm hi (by simp [hused]) (by simp [hused])
    · exact (hi q).frame_proc hm rfl (by simp [e])
  | reparent p pp status hy hk h =>
    rcases eq_or_ne q pp with rfl | e
    · exact histOk_silent hm hi (by simp) (by simp) (by simp [h])
    · exact (hi q).frame_proc hm rfl (by simp [e])
  | wakeup p j ch k' hy hj hl hg =>
    rcases eq_or_ne q j with rfl | e
    · refine histOk_silent hm hi ?_ ?_
      all_goals rcases wakeup1_state ch (s.proc q) with e | ⟨e, e'⟩ <;> simp [e]; try simp [e']
    · exact (hi q).frame_proc hm rfl (by simp [e])
  | sleepSet p k hy hk =>
    rcases eq_or_ne q p with rfl | e
    · have hr := (hc.slot q).allows hy
      simp only [hk, Pc.allows, decide_eq_true_eq] at hr
      exact histOk_silent hm hi (by simp [hr]) (by simp [hr])
    · exact (hi q).frame_proc hm rfl (by simp [e])
  | sleepTidy p k hy hk =>
    rcases eq_or_ne q p with rfl | e
    · exact histOk_silent hm hi
    · exact (hi q).frame_proc hm rfl (by simp [e])
  | kill p j pid hy hk hl h =>
    rcases eq_or_ne q j with rfl | e
    · refine histOk_silent hm hi ?_ ?_ (by simp) fun l hl => lifeOf_snoc hl
      all_goals rcases kill1_state (s.proc q) with e | ⟨e, e'⟩ <;> simp [e]; try simp [e']
    · exact (hi q).frame_event hm rfl (fun _ => rfl) (by simp [e])
  | preempt p hy hk hl =>
    rcases eq_or_ne q p with rfl | e
    · have hr : (s.proc q).state = .RUNNING := by
        have := (hc.slot q).allows hy
        generalize s.pc q = k at hk this
        cases k <;> simp_all [Pc.interruptible, Pc.allows]
      exact histOk_silent hm hi (by simp [hr]) (by simp [hr])
    · exact (hi q).frame_proc hm rfl (by simp [e])
  | scheduleYield p hy hl hr | schedule p hy hl hr =>
    rcases eq_or_ne q p with rfl | e
    · exact histOk_silent hm hi (by simp [hr]) (by simp [hr])
    · exact (hi q).frame_proc hm rfl (by simp [e])

theorem histOk_userinit : HistOk userinit q := by
  by_cases hq : q = initproc
  · subst hq
    refine ⟨.live initproc 1, rfl, ⟨by decide, by decide, by decide, by decide⟩, fun p hp => ?_⟩
    by_cases h : p = initproc <;> simp [userinit, h, Pc.forking] at hp
  · refine ⟨.absent, by simp [lifeOf, hq, userinit], ?_, fun p hp => ?_⟩
    · exact ⟨by simp [userinit, hq], by simp [userinit, hq]⟩
    by_cases h : p = initproc <;> simp [userinit, h, Pc.forking] at hp

theorem histOk_reachable (h : Reachable s) (q : Slot) : HistOk s q := by
  obtain ⟨as, h⟩ := h
  have := run_induct (I := fun s => Control s ∧ ∀ q, HistOk s q)
    (fun s a t hs ht => ⟨control_move (step_move ht) hs.1,
      fun q => histOk_move (step_move ht) hs.1 hs.2⟩)
    ⟨control_userinit, fun q => histOk_userinit⟩ h
  exact this.2 q

/-! ## A zombie whose status could not be copied out can still be reaped -/

/-- `p` is in `wait`, its zombie child `np` is there to be reaped, and no child of `p` in a slot
before `np` is a zombie. -/
structure Waits (s : Kernel) (p np : Slot) (x : Proc) : Prop where
  control : Control s
  wait : s.waitLock = some p
  yield : s.yield p = .none
  child : s.proc np = x
  lock : s.lock np = false
  before : ∀ j, j < np → (s.proc j).parent = some p → (s.proc j).state ≠ .ZOMBIE

section Reap

variable {x : Proc} {j : Slot}

/-- Some run frees the lock of `j` and disturbs neither `p` nor `np`. -/
def Frees (s : Kernel) (p np : Slot) (x : Proc) (j : Slot) : Prop :=
  ∃ as t, run step s as = some t ∧ Waits t p np x ∧ t.pc p = s.pc p ∧ t.lock j = false ∧
    t.history = s.history

section

variable (hw : Waits s p np x)
include hw

/-- A step of another process on its own slot, after which the lock can be freed. -/
theorem Waits.frees_of_step (hjp : j ≠ p) (hjn : j < np) (hstep : step s (.exec j .go) = some t)
    (hwait : t.waitLock = s.waitLock) (hyield : t.yield p = s.yield p) (hpc : t.pc p = s.pc p)
    (hh : t.history = s.history) (hproc : ∀ r, r ≠ j → t.proc r = s.proc r)
    (hlock : t.lock np = s.lock np) (hpar : (t.proc j).parent = (s.proc j).parent)
    (hz : (s.proc j).state ≠ .ZOMBIE → (t.proc j).state ≠ .ZOMBIE)
    (next : Waits t p np x → Frees t p np x j) : Frees s p np x j := by
  have hwt : Waits t p np x := by
    refine ⟨control_move (step_move hstep) hw.control, hwait.trans hw.wait,
      hyield.trans hw.yield, (hproc np hjn.ne').trans hw.child, hlock.trans hw.lock, ?_⟩
    intro i hi hp
    rcases eq_or_ne i j with rfl | e
    · exact hz (hw.before i hi (hpar ▸ hp))
    · rw [hproc i e] at hp ⊢
      exact hw.before i hi hp
  obtain ⟨as, u, hu, hwu, hpu, hlu, hhu⟩ := next hwt
  exact ⟨_ :: as, u, run_cons_eq_some.mpr ⟨t, hstep, hu⟩, hwu, hpu.trans hpc, hlu, hhu.trans hh⟩

theorem Waits.frees_now (hl : s.lock j = false) : Frees s p np x j :=
  ⟨[], s, rfl, hw, rfl, hl, rfl⟩

theorem Waits.frees_sleepSched (hjp : j ≠ p) (hjn : j < np) (hy : s.yield j = .none) {k : Sleep}
    (hk : s.pc j = .sleepSched k) : Frees s p np x j := by
  have hstep : step s (.exec j .go) = some ((s.setLock j false).setPc j (.asleep k)) := by
    simp only [step, hy, exec, hk]
  exact hw.frees_of_step hjp hjn hstep rfl rfl (by simp [hjp.symm]) rfl (by simp)
    (by simp [hjn.ne']) rfl id fun h => h.frees_now (by simp)

theorem Waits.frees_sleepSet (hjp : j ≠ p) (hjn : j < np) (hy : s.yield j = .none) {k : Sleep}
    (hk : s.pc j = .sleepSet k) : Frees s p np x j := by
  have hstep : step s (.exec j .go) = some ((s.setProc j { s.proc j with
      chan := some (k.chan j), state := .SLEEPING }).setPc j (.sleepSched k)) := by
    simp only [step, hy, exec, hk]
  exact hw.frees_of_step hjp hjn hstep rfl rfl (by simp [hjp.symm]) rfl (by simp +contextual) rfl
    (by simp) (by simp) fun h => h.frees_sleepSched hjp hjn hy (k := k) (by simp)

theorem Waits.frees_sleepRelease (hjp : j ≠ p) (hjn : j < np) (hy : s.yield j = .none) {a : ℕ}
    (hk : s.pc j = .sleepRelease (.other a)) : Frees s p np x j := by
  have hstep : step s (.exec j .go) = some (s.setPc j (.sleepSet (.other a))) := by
    simp only [step, hy, exec, hk]
  exact hw.frees_of_step hjp hjn hstep rfl rfl (by simp [hjp.symm]) rfl (by simp) rfl rfl id
    fun h => h.frees_sleepSet hjp hjn hy (k := .other a) (by simp)

/-- A child that holds its own lock can go on and release it. -/
theorem Waits.frees (hjp : j ≠ p) (hjn : j < np) (hj : (s.proc j).parent = some p) :
    Frees s p np x j := by
  have hwait : (s.pc j).holdsWait ≠ true := fun h =>
    hjp (Option.some.inj (((hw.control.slot j).wait.mpr h).symm.trans hw.wait))
  have hz := hw.before j hjn hj
  obtain ⟨-, hlock, hyield, hstate, -⟩ := hw.control.slot j
  cases hy : s.yield j with
  | sched =>
    have hstep : step s (.exec j .go) = some ((s.setLock j false).setYield j .off) := by
      simp only [step, hy]
    exact hw.frees_of_step hjp hjn hstep rfl (by simp [hjp.symm]) rfl rfl (by simp)
      (by simp [hjn.ne']) rfl id fun h => h.frees_now (by simp)
  | back =>
    have hstep : step s (.exec j .go) = some ((s.setLock j false).setYield j .none) := by
      simp only [step, hy]
    exact hw.frees_of_step hjp hjn hstep rfl (by simp [hjp.symm]) rfl rfl (by simp)
      (by simp [hjn.ne']) rfl id fun h => h.frees_now (by simp)
  | off =>
    have hk := Pc.interruptible_control (hyield (by simp [hy]))
    exact hw.frees_now (by rw [hlock, hy, hk.1]; rfl)
  | none =>
    rw [hy] at hstate hlock
    cases hk : s.pc j with
    | forkret =>
      have hstep : step s (.exec j .go) = some ((s.setLock j false).setPc j .user) := by
        simp only [step, hy, exec, hk]
      exact hw.frees_of_step hjp hjn hstep rfl rfl (by simp [hjp.symm]) rfl (by simp)
        (by simp [hjn.ne']) rfl id fun h => h.frees_now (by simp)
    | sleepTidy k =>
      have hstep : step s (.exec j .go) = some (((s.setProc j { s.proc j with
          chan := none }).setLock j false).setPc j (.sleepReacquire k)) := by
        simp only [step, hy, exec, hk]
      exact hw.frees_of_step hjp hjn hstep rfl rfl (by simp [hjp.symm]) rfl
        (by simp +contextual) (by simp [hjn.ne']) (by simp) (by simp)
        fun h => h.frees_now (by simp)
    | sleepSched k => exact hw.frees_sleepSched hjp hjn hy hk
    | sleepSet k => exact hw.frees_sleepSet hjp hjn hy hk
    | sleepRelease k =>
      cases k with
      | wait => simp [hk, Pc.holdsWait, Sleep.isWait] at hwait
      | other a => exact hw.frees_sleepRelease hjp hjn hy hk
    | exitRelease => simp [hk, Pc.holdsWait] at hwait
    | exitSched => simp [hk, Yield.allows, Pc.allows, hz] at hstate
    | _ => exact hw.frees_now (by rw [hlock, hk]; rfl)

theorem Waits.scan_one {havekids : Bool} (hjn : j < np) (hk : s.pc p = .waitScan j havekids) :
    ∃ as t b, run step s as = some t ∧ Waits t p np x ∧ t.pc p = .waitScan (j + 1) b ∧
      t.history = s.history := by
  -- first let the child release its lock, if this slot is a child that holds it
  have hfree : ∃ as u, run step s as = some u ∧ Waits u p np x ∧ u.pc p = s.pc p ∧
      ((u.proc j).parent = some p → u.lock j = false) ∧ u.history = s.history := by
    by_cases hj : (s.proc j).parent = some p
    · rcases eq_or_ne j p with rfl | hjp
      · refine ⟨[], s, rfl, hw, rfl, fun _ => ?_, rfl⟩
        rw [(hw.control.slot j).lock, hk, hw.yield]
        rfl
      · obtain ⟨as, u, hrun, hwu, hpc, hlock, hh⟩ := hw.frees hjp hjn hj
        exact ⟨as, u, hrun, hwu, hpc, fun _ => hlock, hh⟩
    · exact ⟨[], s, rfl, hw, rfl, fun h => absurd h hj, rfl⟩
  obtain ⟨as, u, hrun, hwu, hpc, hlock, hh⟩ := hfree
  rw [hk] at hpc
  have hnext : ∃ b, step u (.exec p .go) = some (u.setPc p (.waitScan (j + 1) b)) := by
    by_cases hj : (u.proc j).parent = some p
    · exact ⟨true, by
        simp [step, hwu.yield, exec, hpc, waitScanStep, hj, hlock hj, hwu.before j hjn hj]⟩
    · exact ⟨havekids, by simp [step, hwu.yield, exec, hpc, waitScanStep, hj]⟩
  obtain ⟨b, hstep⟩ := hnext
  exact ⟨as ++ [.exec p .go], u.setPc p (.waitScan (j + 1) b), b,
    run_snoc_eq_some.mpr ⟨u, hrun, hstep⟩,
    ⟨control_move (step_move hstep) hwu.control, hwu.wait, hwu.yield, hwu.child, hwu.lock,
      hwu.before⟩, by simp, hh⟩

theorem Waits.scan_to (hk : s.pc p = .waitScan 0 false) :
    ∀ i ≤ np.val, ∃ as t b, run step s as = some t ∧ Waits t p np x ∧ t.pc p = .waitScan i b ∧
      t.history = s.history := by
  intro i
  induction i with
  | zero => exact fun _ => ⟨[], s, false, rfl, hw, hk, rfl⟩
  | succ i ih =>
    intro hi
    obtain ⟨as, u, b, hrun, hwu, hpc, hh⟩ := ih (by omega)
    obtain ⟨bs, t, b', hrun', hwt, hpc', hh'⟩ :=
      hwu.scan_one (j := ⟨i, by omega⟩) (Fin.lt_def.mpr hi) hpc
    exact ⟨as ++ bs, t, b', by rw [run_append, hrun]; exact hrun', hwt, hpc', hh'.trans hh⟩

/-- A process in `wait` with a zombie child can go on to reap it. -/
theorem Waits.reap (hk : s.pc p = .waitScan 0 false) (hp : x.parent = some p)
    (hz : x.state = .ZOMBIE) :
    ∃ as t, run step s as = some t ∧ t.history = s.history ++ [.reaped p np x.pid x.xstate] := by
  obtain ⟨as, u, b, hrun, hwu, hpc, hh⟩ := hw.scan_to hk np le_rfl
  obtain rfl := hwu.child
  refine ⟨as ++ [.exec p .go], ((u.setProc np freeproc).setPc p .waitReturn).record
    (.reaped p np (u.proc np).pid (u.proc np).xstate), run_snoc_eq_some.mpr ⟨u, hrun, ?_⟩, ?_⟩
  · simp [step, hwu.yield, exec, hpc, waitScanStep, hp, hwu.lock, hz]
  · simp [hh]

end

end Reap

/-- After a `wait` whose `copyout` failed, the same process can call `wait` again and reap the
child that it found. -/
theorem reap_after_copyoutFailed (hs : Reachable s) (hy : s.yield p = .none) {b : Bool}
    (hk : s.pc p = .waitScan np b) (hp : (s.proc np).parent = some p) (hl : s.lock np = false)
    (hz : (s.proc np).state = .ZOMBIE)
    (ht : t = (s.setPc p .waitReturn).record (.copyoutFailed p np)) :
    ∃ as u, run step t as = some u ∧
      u.history = t.history ++ [.reaped p np (s.proc np).pid (s.proc np).xstate] := by
  have hstep : step s (.exec p .fail) = some t := by
    simp [step, hy, exec, hk, waitScanStep, hp, hl, hz, ht]
  -- `p` returns from `wait` and calls it again
  set u := ((t.setWaitLock none).setPc p .user) with hu
  have hsu : step t (.exec p .go) = some u := by simp [step, exec, ht, hy, hu]
  set v := ((u.setWaitLock (some p)).setPc p (.waitScan 0 false)) with hv
  have hsv : step u (.exec p .wait) = some v := by
    simp [step, exec, userStep, hu, ht, hy, hv]
  have hw : Waits v p np (s.proc np) := by
    refine ⟨?_, rfl, ?_, ?_, ?_, ?_⟩
    · exact control_move (step_move hsv) (control_move (step_move hsu)
        (control_move (step_move hstep) (control_reachable hs)))
    · simpa [hv, hu, ht] using hy
    · simp [hv, hu, ht]
    · simpa [hv, hu, ht] using hl
    · intro j hj
      have := (tree_reachable hs).scanned p j (by simpa [hk, Pc.scanned] using hj)
      simpa [hv, hu, ht] using this
  obtain ⟨as, w, hrun, hh⟩ := hw.reap (by simp [hv]) hp hz
  refine ⟨.exec p .go :: .exec p .wait :: as, w, ?_, hh⟩
  exact run_cons_eq_some.mpr ⟨u, hsu, run_cons_eq_some.mpr ⟨v, hsv, hrun⟩⟩

/-- Only the scan of a `wait` that has found a zombie child records a failed `copyout`. -/
theorem copyoutFailed_of_move (h : Move s t) (hh : t.history = s.history ++ [.copyoutFailed p np]) :
    ∃ b, s.yield p = .none ∧ s.pc p = .waitScan np b ∧ (s.proc np).parent = some p ∧
      s.lock np = false ∧ (s.proc np).state = .ZOMBIE ∧
      t = (s.setPc p .waitReturn).record (.copyoutFailed p np) := by
  cases h with
  | copyoutFailed p' np' b hy hk hp hl hz =>
    obtain ⟨rfl, rfl⟩ : p' = p ∧ np' = np := by simpa using hh
    exact ⟨b, hy, hk, hp, hl, hz, rfl⟩
  | alloc | allocFails | zombie | reap => simp [allocproc_eq, allocprocFails] at hh
  | _ => simp at hh

/-- Only the scan of a `wait` that has found a zombie child records that it was reaped. -/
theorem reaped_of_move {pid status : ℤ} (h : Move s t)
    (hh : t.history = s.history ++ [.reaped p np pid status]) :
    (s.proc np).parent = some p ∧ (s.proc np).state = .ZOMBIE ∧ (s.proc np).pid = pid ∧
      (s.proc np).xstate = status ∧ t.proc = Function.update s.proc np freeproc := by
  cases h with
  | reap p' np' b hy hk hp hl hz =>
    obtain ⟨rfl, rfl, hpid, hxs⟩ : p' = p ∧ np' = np ∧ (s.proc np').pid = pid ∧
        (s.proc np').xstate = status := by simpa using hh
    exact ⟨hp, hz, hpid, hxs, rfl⟩
  | alloc | allocFails | zombie | copyoutFailed => simp [allocproc_eq, allocprocFails] at hh
  | _ => simp at hh

/-! ## The results -/

/-- A process that sleeps in `wait` has no zombie child, once no `exit` holds `wait_lock`. -/
theorem not_zombie_of_sleeping (hc : Control s) (ht : Tree s) (hw : s.waitLock = none)
    (hs : (s.proc q).state = .SLEEPING) (hch : (s.proc q).chan = some (.proc q))
    (hp : (s.proc r).parent = some q) : (s.proc r).state ≠ .ZOMBIE := by
  intro hz
  have hcom : Committed s q := by
    have hchan := (hc.slot q).chan
    obtain ⟨k, hk⟩ := (hc.slot q).pc_of_sleeping hs
    have hwait : k = .wait := by
      rcases hk with hk | hk <;> cases k <;> simp_all [Pc.sleeping, Sleep.chan]
    subst hwait
    rcases hk with hk | hk
    · exact .inr (.inl hk)
    · exact .inr (.inr ⟨hk, hs⟩)
  obtain ⟨-, e, he⟩ := ht.committed q r hcom hp hz
  have hwe := (hc.slot e).wait.mpr (by
    generalize s.pc e = k at he
    cases k <;> simp_all [Pc.wakesInit, Pc.holdsWait])
  simp [hw] at hwe

theorem exit_wait_exactly_once (as : List Act) {s : Kernel} (h : run step userinit as = some s) :
    (s.waitLock = none → (∀ q, q ≠ initproc →
        (s.proc q).state ∈ [.RUNNABLE, .RUNNING, .SLEEPING, .ZOMBIE] →
        ∃ r, (s.proc q).parent = some r ∧ (s.proc r).state ≠ .UNUSED ∧ (s.proc r).state ≠ .ZOMBIE) ∧
      (∀ q r, (s.proc q).parent = some r → (s.proc r).state ≠ .UNUSED) ∧
      (∀ q c, (s.proc q).state = .SLEEPING → (s.proc q).chan = some (.proc q) →
        (s.proc c).parent = some q → (s.proc c).state ≠ .ZOMBIE)) ∧
    (∀ q, lifeOf q s.history ≠ none) ∧
    (∀ a t p np pid status, step s a = some t →
      t.history = s.history ++ [.reaped p np pid status] →
      (s.proc np).parent = some p ∧ (s.proc np).state = .ZOMBIE ∧ (s.proc np).pid = pid ∧
        (s.proc np).xstate = status ∧ t.proc = Function.update s.proc np freeproc) ∧
    (∀ a t p np, step s a = some t → t.history = s.history ++ [.copyoutFailed p np] →
      t.proc = s.proc ∧ (s.proc np).parent = some p ∧ (s.proc np).state = .ZOMBIE ∧
      ∃ bs u, run step t bs = some u ∧
        u.history = t.history ++ [.reaped p np (s.proc np).pid (s.proc np).xstate]) := by
  have hr : Reachable s := ⟨as, h⟩
  have hc := control_reachable hr
  have ht := tree_reachable hr
  have halive : ∀ q r, (s.proc q).parent = some r →
      (s.proc r).state ≠ .UNUSED ∧ (s.proc r).state ≠ .ZOMBIE := by
    intro q r hp
    have := ht.parent_alive q r hp
    constructor <;> intro e <;> simp [e, ProcState.alive] at this
  refine ⟨fun hw => ⟨?_, fun q r hp => (halive q r hp).1, ?_⟩, ?_, ?_, ?_⟩
  · intro q hq hst
    have hpar : (s.proc q).parent ≠ none := by
      refine ht.has_parent q hq ?_
      generalize (s.proc q).state = x at *
      cases x <;> simp_all [ProcState.alive]
    obtain ⟨r, hp⟩ := Option.ne_none_iff_exists'.mp hpar
    exact ⟨r, hp, halive q r hp⟩
  · exact fun q c hs hch hp => not_zombie_of_sleeping hc ht hw hs hch hp
  · intro q
    obtain ⟨l, hl, -⟩ := histOk_reachable hr q
    simp [hl]
  · intro a t p np pid status hstep hh
    exact reaped_of_move (step_move hstep) hh
  · intro a t p np hstep hh
    obtain ⟨b, hy, hk, hp, hl, hz, rfl⟩ := copyoutFailed_of_move (step_move hstep) hh
    exact ⟨rfl, hp, hz, reap_after_copyoutFailed hr hy hk hp hl hz rfl⟩

/-! ## A run with an orphan -/

def child : Slot := ⟨1, by decide⟩

def grandchild : Slot := ⟨2, by decide⟩

/-- `p` starts a call and takes the next `n` steps of it. -/
def calls (p : Slot) (c : Choice) (n : ℕ) : List Act := .exec p c :: List.replicate n (.exec p .go)

/-- `scheduler` runs the new process `p` for the first time, and it starts a call. -/
def starts (p : Slot) (c : Choice) (n : ℕ) : List Act := .schedule p :: .exec p .go :: calls p c n

/-- `initproc` forks a child. The child forks and exits, which hands the grandchild to `initproc`.
After the exit of the grandchild, `initproc` reaps the child, and its next `wait` fails to copy out
the status of the grandchild. -/
def orphanTrace : List Act :=
  [starts initproc .fork 4, starts child .fork 5, calls child (.exit 3) 198,
    starts grandchild (.exit 7) 133, calls initproc .wait 3, calls initproc .wait 2,
    [.exec initproc .fail, .exec initproc .go], calls initproc .wait 2].flatten

theorem run_orphanTrace : ∃ s t, run step userinit orphanTrace = some s ∧
    step s (.exec initproc .go) = some t ∧
    s.history = [.forked initproc child 2, .forked child grandchild 3, .exited child 2 3,
      .exited grandchild 3 7, .reaped initproc child 2 3, .copyoutFailed initproc grandchild] ∧
    t.history = s.history ++ [.reaped initproc grandchild 3 7] := by
  have h : ((run step userinit orphanTrace).bind fun s =>
      (step s (.exec initproc .go)).map fun t => (s.history, t.history)) =
      some ([.forked initproc child 2, .forked child grandchild 3, .exited child 2 3,
        .exited grandchild 3 7, .reaped initproc child 2 3, .copyoutFailed initproc grandchild],
        [.forked initproc child 2, .forked child grandchild 3, .exited child 2 3,
        .exited grandchild 3 7, .reaped initproc child 2 3, .copyoutFailed initproc grandchild,
        .reaped initproc grandchild 3 7]) := by decide +kernel
  obtain ⟨s, hs, h⟩ := Option.bind_eq_some_iff.mp h
  obtain ⟨t, ht, h⟩ := Option.map_eq_some_iff.mp h
  obtain ⟨h1, h2⟩ := Prod.mk.inj h
  exact ⟨s, t, hs, ht, h1, by rw [h1, h2]; rfl⟩

/-- The grandchild is reaped by `initproc`, its parent since the child's `exit`, after a `wait` that
left it a zombie. -/
theorem exit_wait_exactly_once_orphan : ∃ s t, run step userinit orphanTrace = some s ∧
    step s (.exec initproc .go) = some t ∧
    t.history = [.forked initproc child 2, .forked child grandchild 3, .exited child 2 3,
      .exited grandchild 3 7, .reaped initproc child 2 3, .copyoutFailed initproc grandchild,
      .reaped initproc grandchild 3 7] ∧
    (s.proc grandchild).parent = some initproc ∧ (s.proc grandchild).state = .ZOMBIE ∧
    (s.proc grandchild).pid = 3 ∧ (s.proc grandchild).xstate = 7 ∧
    t.proc = Function.update s.proc grandchild freeproc ∧ lifeOf grandchild s.history ≠ none := by
  obtain ⟨s, t, hs, ht, h1, h2⟩ := run_orphanTrace
  have h := exit_wait_exactly_once orphanTrace hs
  obtain ⟨hpar, hz, hpid, hxs, hproc⟩ := h.2.2.1 _ t initproc grandchild 3 7 ht h2
  exact ⟨s, t, hs, ht, by rw [h2, h1]; rfl, hpar, hz, hpid, hxs, hproc, h.2.1 grandchild⟩

end TatakOS.ProcTable
