import TatakOS.Sched.Steps

/-!
# A process runs on at most one CPU

`OneCpu` is what every state reached by any number of CPUs satisfies: `c->proc` and the states of
the processes agree, contexts are switched under `p->lock`, a zombie is not chosen again and is
freed only after its last `swtch`, and nothing panics.
-/

namespace TatakOS.Sched

open ProcTable (Slot Proc ProcState initproc)

variable {C L : Type} {s : State C L} {c c' : C} {p np : Slot}

/-- CPU `c` saves or loads the context of `p`. -/
inductive Switches (s : State C L) (c : C) (p : Slot) : Prop
  | loading (h : (s.cpu c).run = .loading p)
  | leaving (h : (s.cpu c).run = .leaving p)
  /-- At `swtch` in `scheduler`. -/
  | scheduler (st : List (Frame L)) (h : (s.cpu c).run = .thread none (.scheduler (.swtch p) :: st))
  /-- At `swtch` in `sched`. -/
  | sched (b : Bool) (st : List (Frame L))
    (h : (s.cpu c).run = .thread (some p) (.sched (.swtch b) :: st))

/-- `scheduler` on CPU `c` has decided to run `p`. -/
inductive Schedules (s : State C L) (c : C) (p : Slot) : Prop
  | setProc (st : List (Frame L)) (h : (s.cpu c).run = .thread none (.scheduler (.setProc p) :: st))
  | swtch (st : List (Frame L)) (h : (s.cpu c).run = .thread none (.scheduler (.swtch p) :: st))
  | loading (h : (s.cpu c).run = .loading p)

structure OneCpu (s : State C L) : Prop where
  /-- Two CPUs never have the same process. -/
  proc : ∀ c c' p, (s.cpu c).proc = some p → (s.cpu c').proc = some p → c = c'
  /-- A process whose lock is free is `RUNNING` if and only if some CPU has it. -/
  running : ∀ p, s.holder (.proc p) = none →
    ((s.proc p).state = .RUNNING ↔ ∃ c, (s.cpu c).proc = some p)
  /-- A context is written and loaded only under the lock of the process. -/
  context : ∀ c p, Switches s c p → s.holder (.proc p) = some c
  zombie : ∀ c p, Schedules s c p → (s.proc p).state ≠ .ZOMBIE
  /-- When `wait` frees a zombie, no CPU has it, runs its stack or switches from or to it. -/
  freed : ∀ c p np st, (s.cpu c).run = .thread (some p) (.wait (.test np) :: st) →
    (s.proc np).state = .ZOMBIE → ∀ c', (s.cpu c').proc ≠ some np ∧ ¬ Switches s c' np ∧
      ∀ st', (s.cpu c').run ≠ .thread (some np) st'
  panic : s.panic = none

theorem Inv.owner_of_proc (hI : Inv s) (h : (s.cpu c).proc = some p) :
    (s.cpu c).run.owner = some p := by
  have hok := hI.run c
  generalize (s.cpu c).run = r at hok
  cases r with
  | thread th st =>
    cases th with
    | none =>
      have hp : procOf st = some p := hok.proc.symm.trans h
      unfold procOf at hp
      split at hp
      · exact hp
      · exact hp
      · cases hp
    | some q => exact hok.proc.symm.trans h
  | loading q | leaving q => exact hok.2.proc.symm.trans h

theorem Inv.holder_of_switches (hI : Inv s) (h : Switches s c p) : s.holder (.proc p) = some c := by
  have hh := hI.held c
  cases h with
  | loading h | leaving h | scheduler st h =>
    rw [h] at hh
    exact (hh.holder _).mpr List.mem_cons_self
  | sched b st h =>
    have hl := hI.legal h
    have hcases := hl.sched_cases
    refine hI.holds h (hl.lock_mem ?_)
    obtain ⟨f, st', rfl, -, hf⟩ | ⟨status, rfl, -⟩ := hcases
    · cases f with
      | yield k => nofun
      | sleep ch lk k => nofun
      | _ => cases hf
    · nofun

/-- A process that is not `RUNNING` on its CPU is locked there. -/
theorem Inv.holder_of_owner (hI : Inv s) (ho : (s.cpu c).run.owner = some p)
    (hs : (s.proc p).state ≠ .RUNNING) : s.holder (.proc p) = some c := by
  obtain h | ⟨-, -, hm⟩ := (hI.run c).owned ho
  · exact absurd h hs
  · exact ((hI.held c).holder _).mpr hm

theorem Inv.oneCpu (hI : Inv s) : OneCpu s := by
  have hheld : ∀ c p, s.holder (.proc p) = none → Lock.proc p ∉ (s.cpu c).run.locks := by
    intro c p hl hm
    rw [((hI.held c).holder _).mpr hm] at hl
    cases hl
  constructor
  · intro c c' p h h'
    exact hI.unique c c' p (hI.owner_of_proc h) (hI.owner_of_proc h')
  · intro p hl
    constructor
    · intro hr
      -- A process that is switched away is not `RUNNING`, so it belongs to a CPU.
      by_contra hno
      refine (hI.parked p fun c ho => hno ⟨c, ?_⟩).state hr
      have hok := hI.run c
      have hnot := hheld c p hl
      generalize (s.cpu c).run = r at ho hok hnot
      cases r with
      | thread th st =>
        cases th with
        | some q =>
          cases ho
          exact hok.proc
        | none =>
          obtain ho | ⟨-, ho⟩ := Option.or_eq_some_iff.mp ho
          · exact absurd (lock_of_chosen ho) hnot
          · exact absurd (lock_of_left ho) hnot
      | loading q | leaving q =>
        cases ho
        exact absurd List.mem_cons_self hnot
    · rintro ⟨c, hc⟩
      by_contra hs
      have := hI.holder_of_owner (hI.owner_of_proc hc) hs
      rw [hl] at this
      cases this
  · exact fun c p h => hI.holder_of_switches h
  · intro c p h hz
    have hr : (s.proc p).state = .RUNNING := by
      have hok := hI.run c
      cases h with
      | setProc st h | swtch st h =>
        rw [h] at hok
        exact (hok.chosen p rfl).state
      | loading h =>
        rw [h] at hok
        exact hok.1.state
    rw [hz] at hr
    cases hr
  · intro c p np st hrun hz c'
    have hlock : s.holder (.proc np) = some c := hI.holds hrun (by simp [Frame.locks])
    have hnot : ∀ c', (s.cpu c').run.owner ≠ some np := by
      intro c' ho
      obtain rfl := hI.owner_eq hlock (by rw [hz]; simp) ho
      obtain ⟨p', hp', -, hs⟩ := hI.myproc hrun (by simp)
      rw [hrun] at ho
      cases hp'
      cases ho
      rw [hz] at hs
      cases hs
    refine ⟨fun h => hnot c' (hI.owner_of_proc h), fun h => hnot c' ?_, fun st' h => hnot c' ?_⟩
    · cases h with
      | loading h | leaving h | scheduler st h | sched b st h =>
        rw [h]
        rfl
    · rw [h]
      rfl
  · exact hI.panic

theorem inv_start : Inv (start C L) := by
  have hforks : ∀ p np, ¬ Forks ((start C L).context p) np := by
    intro p np
    by_cases e : p = initproc <;> simp [start, e, Frame.child]
  have hno : ∀ p np, ¬ Forker (start C L) p np := by
    rintro p np (⟨c, st, h, -⟩ | ⟨-, h⟩)
    · cases h
    · exact hforks p np h
  constructor
  · rfl
  · intro c
    exact ⟨fun l => by simp [start, Run.locks, Frame.locks], List.nodup_nil, rfl, by rintro ⟨⟩⟩
  · intro c
    exact ⟨.scheduler _ rfl, rfl, by rintro _ ⟨⟩, by rintro _ ⟨⟩⟩
  · intros; contradiction
  · intro p _
    by_cases e : p = initproc
    · subst e
      exact ⟨by rintro ⟨⟩, fun _ => saved_forkret, fun h => absurd (.inl rfl) h⟩
    · have hs : ((start C L).proc p).state = .UNUSED := by simp [start, ProcTable.userinit, e]
      refine ⟨by rw [hs]; simp, fun h => ?_, fun _ np => hforks p np⟩
      rw [hs] at h
      obtain h | h := h <;> cases h
  · exact fun p np h => absurd h (hno p np)
  · exact fun p q np h => absurd h (hno p np)

variable [DecidableEq C] [DecidableEq L]

/-- In every state that any number of CPUs reach in any order of their steps and of interrupts. -/
theorem run_oneCpu (as : List (Act C L)) (h : run step (start C L) as = some s) : OneCpu s := by
  have hI : Inv s := run_induct (fun s a t hI hs => Inv.step hI hs) inv_start h
  exact hI.oneCpu

/-- CPU 0 runs `initproc`, which yields, and CPU 1 goes on with it. -/
theorem run_oneCpu_yield : ∃ s : State (Fin 2) Unit, run step (start (Fin 2) Unit)
      (List.replicate 7 (.run 0 .go) ++ [.run 0 .yield] ++ List.replicate 8 (.run 0 .go) ++
        List.replicate 6 (.run 1 .go)) = some s ∧
      (s.cpu 0).proc = none ∧ (s.cpu 1).proc = some initproc ∧ OneCpu s :=
  (exists_of_any (p := fun s => (s.cpu 0).proc = none ∧ (s.cpu 1).proc = some initproc)
    (by decide +kernel)).imp fun _ ⟨hs, h0, h1⟩ => ⟨hs, h0, h1, run_oneCpu _ hs⟩

end TatakOS.Sched
