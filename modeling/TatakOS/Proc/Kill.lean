import TatakOS.Proc.Control

/-!
# What `kill` may touch

`kill(pid)` compares its argument with `p->pid` of every slot, in use or not, and a free slot has
pid 0. `kill_touches_live_iff` says exactly when a run keeps the flag `killed` of the free slots
clear and every successful `kill` hits a process: when no `kill(0)` gets to look at a free slot.
-/

namespace TatakOS.ProcTable

variable {s t : Kernel} {p q np : Slot} {c : Choice} {a : Act} {pid : ℤ}

/-! ## Which step records a `kill` -/

theorem wakeupStep_history {ch : Option Chan} {j : Slot} {k : Pc}
    (h : wakeupStep s p ch j k = some t) : t.history = s.history := by
  unfold wakeupStep at h
  split_ifs at h <;> cases h <;> rfl

theorem userStep_history (h : userStep s p c = some t) : t.history = s.history := by
  cases c <;> simp only [userStep] at h <;> (try split_ifs at h) <;> cases h <;> rfl

theorem exec_killed {p' : Slot} (h : exec s p' c = some t)
    (hh : t.history = s.history ++ [.killed p q pid]) : p' = p ∧ s.pc p = .killScan pid q := by
  cases hk : s.pc p' with
  | killScan pid' i =>
    simp only [exec, hk, killScanStep] at h
    split_ifs at h with hi hl hp
    · cases h
      have e : p' = p ∧ (⟨i, hi⟩ : Slot) = q ∧ pid' = pid := by simpa using hh
      obtain ⟨rfl, rfl, rfl⟩ := e
      exact ⟨rfl, hk⟩
    · cases h; simp at hh
    · cases h; simp at hh
  | user => rw [userStep_history (by simpa only [exec, hk] using h)] at hh; simp at hh
  | dead | newborn | asleep => simp [exec, hk] at h
  | forkScan i =>
    simp only [exec, hk, forkScanStep] at h
    split_ifs at h <;> cases h <;> simp [allocproc_eq, allocprocFails, allocpid] at hh
  | waitScan i b =>
    simp only [exec, hk, waitScanStep] at h
    split_ifs at h <;> cases h <;> simp at hh
  | exitReparent status i =>
    simp only [exec, hk, reparentStep] at h
    split_ifs at h <;> cases h <;> simp at hh
  | exitWakeInit status i j | exitWakeParent status ch j | wakeScan a j =>
    simp only [exec, hk] at h
    split_ifs at h
    · rw [wakeupStep_history h] at hh; simp at hh
    · cases h; simp at hh
  | sleepRelease k | sleepReacquire k =>
    cases k <;> simp only [exec, hk] at h <;> (try split_ifs at h) <;> cases h <;> simp at hh
  | _ =>
    simp only [exec, hk] at h
    try split_ifs at h
    cases h
    simp at hh

theorem step_killed (h : step s a = some t) (hh : t.history = s.history ++ [.killed p q pid]) :
    ∃ c, a = .exec p c ∧ s.yield p = .none ∧ s.pc p = .killScan pid q := by
  cases a with
  | exec p' c =>
    simp only [step] at h
    cases hy : s.yield p' with
    | none =>
      rw [hy] at h
      obtain ⟨rfl, hk⟩ := exec_killed h hh
      exact ⟨c, rfl, hy, hk⟩
    | sched | off | back => rw [hy] at h; cases h; try simp at hh
  | schedule p' =>
    simp only [step, scheduler] at h
    split_ifs at h <;> cases h <;> simp at hh
  | preempt p' =>
    simp only [step] at h
    split_ifs at h
    cases h
    simp at hh

theorem kill_of_move (h : Move s t) (hh : t.history = s.history ++ [.killed p q pid]) :
    (s.proc q).pid = pid ∧ t.proc = Function.update s.proc q (kill1 (s.proc q)) := by
  cases h with
  | kill p' q' pid' hy hk hl hp =>
    obtain ⟨rfl, rfl, rfl⟩ : p' = p ∧ q' = q ∧ pid' = pid := by simpa using hh
    exact ⟨hp, rfl⟩
  | alloc | allocFails | zombie | reap | copyoutFailed =>
    simp [allocproc_eq, allocprocFails, allocpid] at hh
  | _ => simp at hh

/-! ## Free slots -/

/-- A slot is free after a move because it was freed, or because it was free before. Then its pid
is the same, and only a `kill` that finds it sets `killed`. -/
theorem unused_of_move (h : Move s t) (hu : (t.proc q).state = .UNUSED) :
    t.proc q = freeproc ∨ (s.proc q).state = .UNUSED ∧ (t.proc q).pid = (s.proc q).pid ∧
      ((t.proc q).killed = (s.proc q).killed ∨
        ∃ p pid, t.history = s.history ++ [.killed p q pid]) := by
  cases procMove_of_move h q with
  | allocFails hu' e => exact .inl e
  | reap p b hk hp hz e => exact .inl e
  | same e => exact .inr ⟨e ▸ hu, by rw [e], .inl (by rw [e])⟩
  | link p hk hk' hw e | reparent p status hk hk' hp e | tidy k hk e =>
    rw [e] at hu ⊢; exact .inr ⟨hu, rfl, .inl rfl⟩
  | wakeup p ch k' hl hg e =>
    rw [e] at hu ⊢
    rcases wakeup1_state ch (s.proc q) with e' | ⟨-, e'⟩
    · exact .inr ⟨e' ▸ hu, wakeup1_pid ch _, .inl (wakeup1_killed ch _)⟩
    · simp [e'] at hu
  | kill p pid hk hl hp e hh =>
    rw [e] at hu ⊢
    rcases kill1_state (s.proc q) with e' | ⟨-, e'⟩
    · exact .inr ⟨e' ▸ hu, kill1_pid _, .inr ⟨p, pid, hh⟩⟩
    · simp [e'] at hu
  | alloc p hk hu' e => simp [e] at hu
  | run p hk hk' e | zombie status hk hy e | sleep k hk hy e | preempt hy hk e | schedule hr e =>
    simp [e] at hu

/-- Every free slot has pid 0 and is not marked as killed. -/
structure FreeOk (s : Kernel) : Prop where
  pid : ∀ q, (s.proc q).state = .UNUSED → (s.proc q).pid = 0
  killed : ∀ q, (s.proc q).state = .UNUSED → (s.proc q).killed = false

theorem freeOk_userinit : FreeOk userinit := by
  constructor <;> intro q hq <;> by_cases h : q = initproc <;> simp_all [userinit]

theorem freeOk_move (h : Move s t) (hi : FreeOk s)
    (hk : ∀ p q pid, t.history = s.history ++ [.killed p q pid] → (s.proc q).state ≠ .UNUSED) :
    FreeOk t := by
  constructor
  · intro q hu
    rcases unused_of_move h hu with e | ⟨hu', e, -⟩
    · rw [e]; rfl
    · rw [e]; exact hi.pid q hu'
  · intro q hu
    rcases unused_of_move h hu with e | ⟨hu', -, e | ⟨p, pid, hh⟩⟩
    · rw [e]; rfl
    · rw [e]; exact hi.killed q hu'
    · exact absurd hu' (hk p q pid hh)

/-- A new process takes over the flag of the free slot. -/
theorem killed_of_forked (h : Move s t) (hh : t.history = s.history ++ [.forked p np pid]) :
    (s.proc np).state = .UNUSED ∧ (t.proc np).killed = (s.proc np).killed := by
  cases h with
  | alloc p' np' hy hk hl hu =>
    obtain ⟨rfl, rfl, rfl⟩ : p' = p ∧ np' = np ∧ s.nextpid = pid := by
      simpa [allocproc_eq] using hh
    exact ⟨hu, by simp [allocproc_eq]⟩
  | allocFails | zombie | reap | copyoutFailed | kill => simp [allocprocFails, allocpid] at hh
  | _ => simp at hh

/-! ## The result -/

/-- The step is that of a `kill(0)` that looks at a free slot. -/
def KillsUnused (s : Kernel) (a : Act) : Prop :=
  ∃ (p q : Slot) (c : Choice), a = .exec p c ∧ s.yield p = .none ∧ s.pc p = .killScan 0 q ∧
    (s.proc q).state = .UNUSED

/-- What a step does to `killed`: a `kill` that returns 0 has found a process with that pid and
changes nothing else, no free slot is marked after the step, and a new process is not marked. -/
def KillOk (s : Kernel) (a : Act) : Prop :=
  ∀ t, step s a = some t → (∀ p q pid, t.history = s.history ++ [.killed p q pid] →
      (s.proc q).state ≠ .UNUSED ∧ (s.proc q).pid = pid ∧ (t.proc q).killed = true ∧
        ∀ r, r ≠ q → t.proc r = s.proc r) ∧
    (∀ q, (t.proc q).state = .UNUSED → (t.proc q).killed = false) ∧
    (∀ p np pid, t.history = s.history ++ [.forked p np pid] → (t.proc np).killed = false)

/-- A `kill` that does not look at a free slot with argument 0 finds a process. -/
theorem live_of_killed (hi : FreeOk s) (hn : ¬ KillsUnused s a) (h : step s a = some t)
    (hh : t.history = s.history ++ [.killed p q pid]) : (s.proc q).state ≠ .UNUSED := by
  intro hu
  obtain ⟨c, rfl, hy, hk⟩ := step_killed h hh
  have hpid : pid = 0 := (kill_of_move (step_move h) hh).1.symm.trans (hi.pid q hu)
  subst hpid
  exact hn ⟨p, q, c, rfl, hy, hk, hu⟩

theorem killOk_of_not_killsUnused (hi : FreeOk s) (hn : ¬ KillsUnused s a) : KillOk s a := by
  intro t h
  have hm := step_move h
  refine ⟨fun p q pid hh => ?_, (freeOk_move hm hi fun p q pid => live_of_killed hi hn h).killed,
    fun p np pid hh => ?_⟩
  · obtain ⟨hpid, hproc⟩ := kill_of_move hm hh
    refine ⟨live_of_killed hi hn h hh, hpid, by simp [hproc, kill1], fun r hr => ?_⟩
    simp [hproc, hr]
  · obtain ⟨hu, e⟩ := killed_of_forked hm hh
    exact e.trans (hi.killed np hu)

/-- A free slot is not locked, so such a `kill` goes through, and it returns 0. -/
theorem not_killsUnused_of_killOk (hc : Control s) (hi : FreeOk s) (hk : KillOk s a) :
    ¬ KillsUnused s a := by
  rintro ⟨p, q, c, rfl, hy, hpc, hu⟩
  have hl : s.lock q = false := by
    obtain ⟨e, ey⟩ := (hc.slot q).pc_of_unused hu
    rw [(hc.slot q).lock, e, ey]
    rfl
  have hstep : step s (.exec p c) =
      some (((s.setProc q (kill1 (s.proc q))).setPc p .user).record (.killed p q 0)) := by
    simp [step, hy, exec, hpc, killScanStep, hl, hi.pid q hu]
  exact ((hk _ hstep).1 p q 0 rfl).1 hu

theorem kill_touches_live_iff (as : List Act) : RunMeets step KillOk userinit as ↔
      RunMeets step (fun s a => ¬ KillsUnused s a) userinit as := by
  have hinv : Control userinit ∧ FreeOk userinit := ⟨control_userinit, freeOk_userinit⟩
  constructor
  · refine RunMeets.of_inv (I := fun s => Control s ∧ FreeOk s) ?_ ?_ hinv
    · intro s a t hs hk h
      have hm := step_move h
      refine ⟨control_move hm hs.1, freeOk_move hm hs.2 fun p q pid hh => ?_⟩
      exact ((hk t h).1 p q pid hh).1
    · exact fun s a hs hk => not_killsUnused_of_killOk hs.1 hs.2 hk
  · refine RunMeets.of_inv (I := fun s => Control s ∧ FreeOk s) ?_ ?_ hinv
    · intro s a t hs hn h
      have hm := step_move h
      exact ⟨control_move hm hs.1, freeOk_move hm hs.2 fun p q pid => live_of_killed hs.2 hn h⟩
    · exact fun s a hs hn => killOk_of_not_killsUnused hs.2 hn

/-- `initproc` calls `kill(0)`: the call returns 0 and marks the free slot 1, and a `fork` then
makes that slot a process that is killed before it starts. -/
theorem kill_zero_marks_unused :
    ∃ s t, run step userinit [.schedule initproc, .exec initproc .go, .exec initproc (.kill 0),
        .exec initproc .go, .exec initproc .go] = some s ∧
      s.history = [.killed initproc ⟨1, by decide⟩ 0] ∧
      (s.proc ⟨1, by decide⟩).state = .UNUSED ∧ (s.proc ⟨1, by decide⟩).killed = true ∧
      run step s [.exec initproc .fork, .exec initproc .go, .exec initproc .go] = some t ∧
      (t.proc ⟨1, by decide⟩).state = .USED ∧ (t.proc ⟨1, by decide⟩).killed = true :=
  ⟨_, _, rfl, rfl, rfl, rfl, rfl, rfl, rfl⟩

end TatakOS.ProcTable
