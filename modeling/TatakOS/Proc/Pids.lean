import TatakOS.Proc.ExitWait
import TatakOS.Proc.Kill

/-!
# Process ids

`allocpid` counts up in a 32-bit `int`. A run keeps the pids of the processes positive and different
exactly if every `fork` that makes a process finds a positive number in `nextpid` that no process
has. After 2147483646 rounds of `fork`, `exit` and `wait` the counter has wrapped around, and the
next `fork` returns -2147483648 (`fork_negative`).
-/

namespace TatakOS.ProcTable

open Function

variable {s t : Kernel} {p q np : Slot} {a : Act} {pid : ℤ}

/-! ## What a step does to the pids -/

/-- The slot is in use after the step exactly if it was before, with the same pid. -/
def SamePid (x y : Proc) : Prop := (y.state = .UNUSED ↔ x.state = .UNUSED) ∧ y.pid = x.pid

theorem SamePid.of_used {x y : Proc} (hx : x.state ≠ .UNUSED) (hy : y.state ≠ .UNUSED)
    (hp : y.pid = x.pid) : SamePid x y := by
  refine ⟨?_, hp⟩
  simp [hx, hy]

inductive PidMove (s t : Kernel) : Prop
  /-- No process is made, though `allocpid` may have been called for one. -/
  | quiet (hn : t.nextpid = s.nextpid ∨ t.nextpid = int32 (s.nextpid + 1))
    (h : ∀ q, SamePid (s.proc q) (t.proc q) ∨ t.proc q = freeproc)
  | alloc (p np : Slot) (hu : (s.proc np).state = .UNUSED) (hn : t.nextpid = int32 (s.nextpid + 1))
    (hp : (t.proc np).pid = s.nextpid) (hs : (t.proc np).state ≠ .UNUSED)
    (h : ∀ q, q ≠ np → t.proc q = s.proc q)
    (hh : t.history = s.history ++ [.forked p np s.nextpid])

theorem PidMove.set {x : Proc} (hn : t.nextpid = s.nextpid ∨ t.nextpid = int32 (s.nextpid + 1))
    (ht : t.proc = update s.proc q x) (hx : SamePid (s.proc q) x ∨ x = freeproc) :
    PidMove s t := by
  refine .quiet hn fun r => ?_
  rw [ht]
  by_cases e : r = q
  · rw [e, update_self]
    exact hx
  · rw [update_of_ne e]
    exact .inl ⟨Iff.rfl, rfl⟩

theorem used_of_quiet {x y : Proc} (h : SamePid x y ∨ y = freeproc) (hy : y.state ≠ .UNUSED) :
    x.state ≠ .UNUSED ∧ y.pid = x.pid := by
  obtain hs | rfl := h
  · exact ⟨fun hu => hy (hs.1.mpr hu), hs.2⟩
  · exact absurd rfl hy

theorem pidMove_of_move (hc : Control s) (h : Move s t) : PidMove s t := by
  have hused : ∀ q, s.pc q ≠ .dead → (s.proc q).state ≠ .UNUSED := fun q hk hu =>
    hk ((hc.slot q).pc_of_unused hu).1
  cases h with
  | goto | takeWait | dropWait | unlock | sleepLock | copyoutFailed | yieldSched | yieldBack =>
    exact .quiet (.inl rfl) fun q => .inl ⟨Iff.rfl, rfl⟩
  | alloc p np hy hk hl hu =>
    refine .alloc p np hu rfl ?_ ?_ (fun q hq => ?_) rfl
    · simp [allocproc_eq]
    · simp [allocproc_eq]
    · simp [allocproc_eq, hq]
  | allocFails p np hy hk hl hu => exact .set (.inr rfl) rfl (.inr rfl)
  | reap p np b hy hk hp hl hz => exact .set (.inl rfl) rfl (.inr rfl)
  | forkLink p np hy hk hw | reparent p pp status hy hk hp | sleepTidy p k hy hk =>
    exact .set (.inl rfl) rfl (.inl ⟨Iff.rfl, rfl⟩)
  | forkRun p np hy hk hl =>
    have hu := hc.fork.used p np (by rw [hk]; rfl)
    exact .set (.inl rfl) rfl (.inl (.of_used (by simp [hu]) (by simp) rfl))
  | wakeup p j ch k' hy hj hl hg =>
    refine .set (.inl rfl) rfl (.inl ⟨?_, wakeup1_pid ch _⟩)
    rcases wakeup1_state ch (s.proc j) with e | ⟨e, e'⟩
    · rw [e]
    · simp [e, e']
  | kill p q pid hy hk hl hp =>
    refine .set (.inl rfl) rfl (.inl ⟨?_, rfl⟩)
    rcases kill1_state (s.proc q) with e | ⟨e, e'⟩
    · rw [e]
    · simp [e, e']
  | zombie p status hy hk hl | sleepSet p k hy hk =>
    exact .set (.inl rfl) rfl (.inl (.of_used (hused p (by simp [hk])) (by simp) rfl))
  | preempt p hy hk hl =>
    have hne : s.pc p ≠ .dead := by
      intro e
      rw [e] at hk
      cases hk
    exact .set (.inl rfl) rfl (.inl (.of_used (hused p hne) (by simp) rfl))
  | scheduleYield p hy hl hr | schedule p hy hl hr =>
    exact .set (.inl rfl) rfl (.inl (.of_used (by simp [hr]) (by simp) rfl))

theorem alloc_of_forked (h : Move s t) (hh : t.history = s.history ++ [.forked p np pid]) :
    pid = s.nextpid ∧ (s.proc np).state = .UNUSED ∧
      t.proc = update s.proc np { s.proc np with pid := s.nextpid, state := .USED } := by
  cases h with
  | alloc p' np' hy hk hl hu =>
    obtain ⟨rfl, rfl, rfl⟩ : p' = p ∧ np' = np ∧ s.nextpid = pid := by
      simpa [allocproc_eq] using hh
    exact ⟨rfl, hu, by simp [allocproc_eq]⟩
  | allocFails | zombie | reap | copyoutFailed | kill => simp [allocprocFails, allocpid] at hh
  | _ => simp at hh

/-! ## The pids of the processes -/

/-- A process has a positive pid, and no other slot has it. -/
structure PidsOk (s : Kernel) : Prop where
  pos : ∀ p, (s.proc p).state ≠ .UNUSED → 0 < (s.proc p).pid
  unique : ∀ p q, (s.proc p).state ≠ .UNUSED → (s.proc q).pid = (s.proc p).pid → q = p

/-- They are so after the step. -/
def PidsAfter (s : Kernel) (a : Act) : Prop := ∀ t, step s a = some t → PidsOk t

/-- The step is the one in which `fork` has found a free slot and calls `allocpid`. -/
def Allocates (s : Kernel) : Act → Prop
  | .exec p _ => s.yield p = .none ∧ ∃ np : Slot, s.pc p = .forkScan np ∧ s.lock np = false ∧
    (s.proc np).state = .UNUSED
  | _ => False

/-- If the step makes a process, then `nextpid` is positive and no process has it. -/
def FreshPid (s : Kernel) (a : Act) : Prop :=
  Allocates s a → (∀ p, a ≠ .exec p .fail) →
    0 < s.nextpid ∧ ∀ q, (s.proc q).state ≠ .UNUSED → (s.proc q).pid ≠ s.nextpid

/-- If the step calls `allocpid`, then `nextpid` has not wrapped around. -/
def NoWrap (s : Kernel) (a : Act) : Prop := Allocates s a → 0 < s.nextpid

/-- What is kept: free slots have pid 0. -/
structure PidInv (s : Kernel) : Prop extends PidsOk s where
  free : ∀ q, (s.proc q).state = .UNUSED → (s.proc q).pid = 0

theorem pidInv_userinit : PidInv userinit := by
  have hpid : ∀ q, (userinit.proc q).pid = if q = initproc then 1 else 0 := by
    intro q
    by_cases h : q = initproc <;> simp [userinit, h]
  have hstate : ∀ q, (userinit.proc q).state = .UNUSED ↔ q ≠ initproc := by
    intro q
    by_cases h : q = initproc <;> simp [userinit, h]
  refine ⟨⟨fun p hp => ?_, fun p q hp hq => ?_⟩, fun q hq => ?_⟩
  · rw [Ne, hstate, not_not] at hp
    rw [hpid, if_pos hp]
    decide
  · rw [Ne, hstate, not_not] at hp
    rw [hpid, hpid, if_pos hp] at hq
    by_contra hne
    rw [if_neg (hp ▸ hne)] at hq
    cases hq
  · rw [hpid, if_neg ((hstate q).mp hq)]

theorem PidInv.move (hi : PidInv s) (h : PidMove s t)
    (hfresh : ∀ p np, t.history = s.history ++ [.forked p np s.nextpid] →
      0 < s.nextpid ∧ ∀ q, (s.proc q).state ≠ .UNUSED → (s.proc q).pid ≠ s.nextpid) :
    PidInv t := by
  cases h with
  | quiet hn h =>
    have hfree : ∀ q, (t.proc q).state = .UNUSED → (t.proc q).pid = 0 := by
      intro q hq
      obtain hs | hf := h q
      · rw [hs.2]
        exact hi.free q (hs.1.mp hq)
      · rw [hf]
        rfl
    have hsame := fun q => used_of_quiet (h q)
    have hpos : ∀ q, (t.proc q).state ≠ .UNUSED → 0 < (t.proc q).pid := by
      intro q hq
      obtain ⟨hu, hp⟩ := hsame q hq
      rw [hp]
      exact hi.pos q hu
    refine ⟨⟨hpos, fun p q hp heq => ?_⟩, hfree⟩
    have hq : (t.proc q).state ≠ .UNUSED := by
      intro hu
      have := hpos p hp
      rw [← heq, hfree q hu] at this
      exact lt_irrefl _ this
    rw [(hsame p hp).2, (hsame q hq).2] at heq
    exact hi.unique p q (hsame p hp).1 heq
  | alloc p np hu hn hp hs h hh =>
    obtain ⟨hpos, hnew⟩ := hfresh p np hh
    refine ⟨⟨fun q hq => ?_, fun q r hq heq => ?_⟩, fun q hq => ?_⟩
    · by_cases e : q = np
      · rw [e, hp]
        exact hpos
      · rw [h q e] at hq ⊢
        exact hi.pos q hq
    · by_cases eq : q = np <;> by_cases er : r = np
      · rw [eq, er]
      · rw [eq, hp, h r er] at heq
        by_cases hur : (s.proc r).state = .UNUSED
        · rw [hi.free r hur] at heq
          omega
        · exact absurd heq (hnew r hur)
      · rw [h q eq] at hq heq
        rw [er, hp] at heq
        exact absurd heq.symm (hnew q hq)
      · rw [h q eq] at hq heq
        rw [h r er] at heq
        exact hi.unique q r hq heq
    · by_cases e : q = np
      · rw [e] at hq
        exact absurd hq hs
      · rw [h q e] at hq ⊢
        exact hi.free q hq

/-! ## The counter -/

theorem int32_lt (x : ℤ) : int32 x < 2 ^ 31 := by
  have := Int.bmod_lt (x := x) (m := 2 ^ 32) (by decide)
  simp only [int32]
  omega

theorem int32_succ_ne (n : ℤ) : int32 (n + 1) ≠ n := by
  simp only [int32, Int.bmod]
  split <;> omega

theorem int32_int32_succ (n : ℤ) : int32 (int32 n + 1) = int32 (n + 1) := by
  simp only [int32, Int.bmod_add_bmod]

/-- Until it wraps around, the counter is above all pids. -/
structure Below (s : Kernel) : Prop where
  lt : s.nextpid < 2 ^ 31
  pid : 0 < s.nextpid → ∀ q, (s.proc q).state ≠ .UNUSED → (s.proc q).pid < s.nextpid

theorem below_userinit : Below userinit := by
  refine ⟨by decide, fun _ q _ => ?_⟩
  by_cases h : q = initproc <;> simp [userinit, h]

theorem int32_succ_of_pos {n : ℤ} (h0 : 0 < n) (h1 : n < 2 ^ 31) (h : 0 < int32 (n + 1)) :
    int32 (n + 1) = n + 1 := by
  simp only [int32, Int.bmod] at h ⊢
  split at h <;> omega

theorem Below.move (hb : Below s) (h : PidMove s t)
    (hw : t.nextpid ≠ s.nextpid → 0 < s.nextpid) : Below t := by
  have hcalled : t.nextpid = int32 (s.nextpid + 1) → 0 < s.nextpid := fun hn =>
    hw (hn ▸ int32_succ_ne _)
  have hsucc : t.nextpid = int32 (s.nextpid + 1) → 0 < t.nextpid → t.nextpid = s.nextpid + 1 := by
    intro hn h0
    rw [hn] at h0 ⊢
    exact int32_succ_of_pos (hcalled hn) hb.lt h0
  cases h with
  | quiet hn h =>
    obtain hn | hn := hn
    · refine ⟨hn ▸ hb.lt, fun h0 q hq => ?_⟩
      obtain ⟨hu, hp⟩ := used_of_quiet (h q) hq
      rw [hp, hn]
      exact hb.pid (hn ▸ h0) q hu
    · refine ⟨hn ▸ int32_lt _, fun h0 q hq => ?_⟩
      obtain ⟨hu, hp⟩ := used_of_quiet (h q) hq
      have := hb.pid (hcalled hn) q hu
      rw [hp, hsucc hn h0]
      omega
  | alloc p np hu hn hp hs h hh =>
    refine ⟨hn ▸ int32_lt _, fun h0 q hq => ?_⟩
    rw [hsucc hn h0]
    by_cases e : q = np
    · rw [e, hp]
      omega
    · rw [h q e] at hq ⊢
      have := hb.pid (hcalled hn) q hq
      omega

/-! ## The steps that call `allocpid` -/

/-- A process that runs out of memory in `fork` is not made. -/
theorem Allocates.step (ha : Allocates s a) (hf : ∀ p, a ≠ .exec p .fail) :
    ∃ t p np, step s a = some t ∧ t.history = s.history ++ [.forked p np s.nextpid] := by
  cases a with
  | exec p c =>
    obtain ⟨hy, np, hk, hl, hu⟩ := ha
    have hc : c ≠ .fail := by
      rintro rfl
      exact hf p rfl
    refine ⟨((allocproc s np).setPc p (.forkLink np)).record (.forked p np s.nextpid), p, np,
      ?_, rfl⟩
    simp [ProcTable.step, hy, exec, hk, forkScanStep, hl, hu, hc]
  | schedule p => exact ha.elim
  | preempt p => exact ha.elim

theorem exec_nextpid {c : Choice} (h : exec s p c = some t) (hn : t.nextpid ≠ s.nextpid) :
    ∃ np : Slot, s.pc p = .forkScan np ∧ s.lock np = false ∧ (s.proc np).state = .UNUSED := by
  have hwake : ∀ ch j k, wakeupStep s p ch j k = some t → t.nextpid = s.nextpid := by
    intro ch j k h
    simp only [wakeupStep] at h
    split_ifs at h <;> cases h <;> rfl
  cases hk : s.pc p with simp only [exec, hk] at h
  | dead | newborn | asleep => cases h
  | forkScan i =>
    simp only [forkScanStep] at h
    split_ifs at h with hi hl hu
    · exact ⟨⟨i, hi⟩, rfl, by simpa using hl, hu⟩
    · exact ⟨⟨i, hi⟩, rfl, by simpa using hl, hu⟩
    all_goals
      cases h
      exact absurd rfl hn
  | user =>
    cases c <;> simp only [userStep] at h <;> try split_ifs at h
    all_goals cases h <;> exact absurd rfl hn
  | exitWakeInit status i j | exitWakeParent status ch j | wakeScan b j =>
    split_ifs at h with hj
    · exact absurd (hwake _ _ _ h) hn
    · cases h
      exact absurd rfl hn
  | sleepRelease k | sleepReacquire k =>
    cases k <;> simp only at h <;> try split_ifs at h
    all_goals
      cases h
      exact absurd rfl hn
  | waitScan i b | killScan pid i | exitReparent status i =>
    simp only [waitScanStep, killScanStep, reparentStep] at h
    try split_ifs at h
    all_goals
      cases h
      exact absurd rfl hn
  | _ =>
    try split_ifs at h
    all_goals
      cases h
      exact absurd rfl hn

/-- Only these steps move `nextpid`. -/
theorem allocates_of_nextpid (h : step s a = some t) (hn : t.nextpid ≠ s.nextpid) :
    Allocates s a := by
  cases a with
  | exec p c =>
    cases hy : s.yield p with simp only [ProcTable.step, hy] at h
    | none => exact ⟨hy, exec_nextpid h hn⟩
    | off => cases h
    | sched | back =>
      cases h
      exact absurd rfl hn
  | schedule p =>
    simp only [ProcTable.step, scheduler] at h
    split_ifs at h <;> cases h <;> exact absurd rfl hn
  | preempt p =>
    simp only [ProcTable.step] at h
    split_ifs at h
    cases h
    exact absurd rfl hn

/-- A step that makes a process calls `allocpid`, and does not run out of memory. -/
theorem allocates_of_forked (h : step s a = some t)
    (hh : t.history = s.history ++ [.forked p np pid]) :
    Allocates s a ∧ ∀ p, a ≠ .exec p .fail := by
  have hn : t.nextpid ≠ s.nextpid := by
    cases step_move h with
    | alloc p' np' hy hk hl hu => exact int32_succ_ne _
    | allocFails | zombie | reap | copyoutFailed | kill => simp [allocprocFails, allocpid] at hh
    | _ => simp at hh
  have ha := allocates_of_nextpid h hn
  refine ⟨ha, ?_⟩
  rintro p' rfl
  obtain ⟨hy, np', hk, hl, hu⟩ := ha
  simp only [ProcTable.step, hy, exec, hk, forkScanStep, Fin.is_lt, Fin.eta, hl, hu,
    dite_true, if_true, Bool.false_eq_true, if_false] at h
  cases h
  simp [allocprocFails, allocpid] at hh

/-! ## The result -/

theorem freshPid_of_pidsAfter (hk : PidsAfter s a) : FreshPid s a := by
  intro ha hf
  obtain ⟨t, p, np, h, hh⟩ := ha.step hf
  obtain ⟨-, hu, hproc⟩ := alloc_of_forked (step_move h) hh
  have hok := hk t h
  have hnp : (t.proc np).state ≠ .UNUSED ∧ (t.proc np).pid = s.nextpid := by
    rw [hproc, update_self]
    exact ⟨nofun, rfl⟩
  refine ⟨hnp.2 ▸ hok.pos np hnp.1, fun q hq heq => ?_⟩
  have hne : q ≠ np := by
    rintro rfl
    exact hq hu
  have hqt : t.proc q = s.proc q := by rw [hproc, update_of_ne hne]
  exact hne (hok.unique np q hnp.1 (by rw [hqt, heq, hnp.2]))

theorem PidInv.step (hc : Control s) (hi : PidInv s) (hf : FreshPid s a) (h : step s a = some t) :
    PidInv t :=
  hi.move (pidMove_of_move hc (step_move h)) fun _ _ hh =>
    hf (allocates_of_forked h hh).1 (allocates_of_forked h hh).2

theorem freshPid_of_noWrap (hb : Below s) (hw : NoWrap s a) : FreshPid s a :=
  fun ha _ => ⟨hw ha, fun q hq => (hb.pid (hw ha) q hq).ne⟩

/-- The pids stay positive and different exactly as long as `fork` finds fresh ones, and it does as
long as the counter has not wrapped around. -/
theorem pids_ok_iff (as : List Act) :
    (RunMeets step PidsAfter userinit as ↔ RunMeets step FreshPid userinit as) ∧
      (RunMeets step NoWrap userinit as → RunMeets step PidsAfter userinit as) := by
  have hinv : Control userinit ∧ PidInv userinit := ⟨control_userinit, pidInv_userinit⟩
  refine ⟨⟨?_, ?_⟩, ?_⟩
  · refine RunMeets.of_inv (I := fun _ => True) (fun _ _ _ _ _ _ => trivial) ?_ trivial
    exact fun s a _ => freshPid_of_pidsAfter
  · refine RunMeets.of_inv (I := fun s => Control s ∧ PidInv s) ?_ ?_ hinv
    · intro s a t hs hf h
      exact ⟨control_move (step_move h) hs.1, hs.2.step hs.1 hf h⟩
    · exact fun s a hs hf t h => (hs.2.step hs.1 hf h).toPidsOk
  · refine RunMeets.of_inv (I := fun s => (Control s ∧ PidInv s) ∧ Below s) ?_ ?_
      ⟨hinv, below_userinit⟩
    · intro s a t hs hw h
      have hf := freshPid_of_noWrap hs.2 hw
      refine ⟨⟨control_move (step_move h) hs.1.1, hs.1.2.step hs.1.1 hf h⟩, ?_⟩
      exact hs.2.move (pidMove_of_move hs.1.1 (step_move h)) fun hn =>
        hw (allocates_of_nextpid h hn)
    · intro s a hs hw t h
      exact (hs.1.2.step hs.1.1 (freshPid_of_noWrap hs.2 hw) h).toPidsOk

/-- The run of a `fork`. -/
theorem pids_ok_iff_fork : RunMeets step PidsAfter userinit
    [.schedule initproc, .exec initproc .go, .exec initproc .fork, .exec initproc .go,
      .exec initproc .go] := by
  refine (pids_ok_iff _).2 ?_
  refine .cons (fun _ => by decide) rfl (.cons (fun _ => by decide) rfl ?_)
  refine .cons (fun _ => by decide) rfl (.cons (fun _ => by decide) rfl ?_)
  exact .cons (fun _ => by decide) rfl trivial

/-! ## Two thousand million forks -/

section Loops

variable {status : ℤ} {ch : Option Chan}

theorem setPc_setPc (s : Kernel) (p : Slot) (k k' : Pc) : (s.setPc p k).setPc p k' = s.setPc p k' := by
  simp [Kernel.setPc]

theorem run_reparent (hy : s.yield p = .none) (hp : ∀ q, (s.proc q).parent ≠ some p) (m : ℕ) :
    ∀ i, i + m ≤ NPROC → run step (s.setPc p (.exitReparent status i))
      (List.replicate m (.exec p .go)) = some (s.setPc p (.exitReparent status (i + m))) := by
  induction m with
  | zero => exact fun i _ => rfl
  | succ m ih =>
    intro i hi
    have hstep : step (s.setPc p (.exitReparent status i)) (.exec p .go) =
        some (s.setPc p (.exitReparent status (i + 1))) := by
      have hlt : i < NPROC := by omega
      simp [step, hy, exec, reparentStep, hlt, hp, setPc_setPc]
    rw [List.replicate_succ, run_cons_eq_some]
    refine ⟨_, hstep, ?_⟩
    rw [ih (i + 1) (by omega), show i + 1 + m = i + (m + 1) by omega]

theorem run_wakeParent (hy : s.yield p = .none) (hl : ∀ q, s.lock q = false)
    (hs : ∀ q, (s.proc q).state ≠ .SLEEPING) (m : ℕ) :
    ∀ i, i + m ≤ NPROC → run step (s.setPc p (.exitWakeParent status ch i))
      (List.replicate m (.exec p .go)) = some (s.setPc p (.exitWakeParent status ch (i + m))) := by
  induction m with
  | zero => exact fun i _ => rfl
  | succ m ih =>
    intro i hi
    have hstep : step (s.setPc p (.exitWakeParent status ch i)) (.exec p .go) =
        some (s.setPc p (.exitWakeParent status ch (i + 1))) := by
      have hlt : i < NPROC := by omega
      have hw : wakeup1 ch (s.proc ⟨i, hlt⟩) = s.proc ⟨i, hlt⟩ := by simp [wakeup1, hs]
      have hset : (s.setPc p (.exitWakeParent status ch i)).setProc ⟨i, hlt⟩ (s.proc ⟨i, hlt⟩) =
          s.setPc p (.exitWakeParent status ch i) := by
        simp [Kernel.setPc, Kernel.setProc]
      simp [step, hy, exec, wakeupStep, hlt, hl, hw, hset, setPc_setPc]
    rw [List.replicate_succ, run_cons_eq_some]
    refine ⟨_, hstep, ?_⟩
    rw [ih (i + 1) (by omega), show i + 1 + m = i + (m + 1) by omega]

end Loops

/-- `initproc` runs user code, and there is no other process. -/
def alone (n : ℤ) (h : List Event) : Kernel where
  proc := update (fun _ => freeproc) initproc { state := .RUNNING, pid := 1 }
  nextpid := n
  waitLock := none
  lock _ := false
  pc := update (fun _ => .dead) initproc .user
  yield _ := .none
  history := h

/-- It has a child in state `x`. -/
def withChild (n : ℤ) (h : List Event) (x : ProcState) (k : Pc) : Kernel :=
  { alone (int32 (n + 1)) (h ++ [.forked initproc child n]) with
    proc := update (alone n h).proc child { state := x, pid := n, parent := some initproc }
    pc := update (alone n h).pc child k }

def forkOnce : List Act :=
  [.exec initproc .fork, .exec initproc .go, .exec initproc .go, .exec initproc .go,
    .exec initproc .go]

theorem slot_cases (q : Slot) : q = initproc ∨ q = child ∨ q ≠ initproc ∧ q ≠ ⟨1, by decide⟩ := by
  by_cases hi : q = initproc
  · exact .inl hi
  by_cases hc : q = child
  · exact .inr (.inl hc)
  · exact .inr (.inr ⟨hi, hc⟩)

theorem Kernel.eq_of (hproc : ∀ q, s.proc q = t.proc q) (hn : s.nextpid = t.nextpid)
    (hw : s.waitLock = t.waitLock) (hl : ∀ q, s.lock q = t.lock q) (hpc : ∀ q, s.pc q = t.pc q)
    (hy : ∀ q, s.yield q = t.yield q) (hh : s.history = t.history) : s = t := by
  cases s
  cases t
  congr
  · exact funext hproc
  · exact funext hl
  · exact funext hpc
  · exact funext hy

/-- The state after a run is given by what it says about each slot. -/
theorem run_eq_of {u : Kernel} {as : List Act} (h : run step s as = some t) (e : t = u) :
    run step s as = some u := e ▸ h

theorem run_forkOnce (n : ℤ) (h : List Event) :
    run step (alone n h) forkOnce = some (withChild n h .RUNNABLE .newborn) := by
  refine run_eq_of rfl
    (Kernel.eq_of (fun q => ?_) rfl rfl (fun _ => rfl) (fun q => ?_) (fun _ => rfl) rfl)
  all_goals
    obtain rfl | rfl | ⟨hi, hc⟩ := slot_cases q
    · rfl
    · rfl
    · simp [withChild, alone, child, hc, hi, allocproc_eq]

/-- The child is in `exit`. -/
def exiting (n : ℤ) (h : List Event) : Kernel :=
  (withChild n h .RUNNING .user).setWaitLock (some child)

theorem run_exitStart (n : ℤ) (h : List Event) : run step (withChild n h .RUNNABLE .newborn)
      [.schedule child, .exec child .go, .exec child (.exit 0)] =
      some ((exiting n h).setPc child (.exitReparent 0 0)) := by
  refine run_eq_of rfl
    (Kernel.eq_of (fun q => ?_) rfl rfl (fun q => ?_) (fun q => ?_) (fun _ => rfl) rfl)
  all_goals
    obtain rfl | rfl | ⟨hi, hc⟩ := slot_cases q
    · rfl
    · rfl
    · simp [exiting, withChild, alone, child, hc, hi]

theorem run_exitMiddle (n : ℤ) (h : List Event) :
    run step ((exiting n h).setPc child (.exitReparent 0 NPROC)) [.exec child .go] =
      some ((exiting n h).setPc child (.exitWakeParent 0 (some (.proc initproc)) 0)) := by
  have hrun : run step ((exiting n h).setPc child (.exitReparent 0 NPROC)) [.exec child .go] =
      some (((exiting n h).setPc child (.exitReparent 0 NPROC)).setPc child
        (.exitWakeParent 0 (some (.proc initproc)) 0)) := rfl
  rw [hrun, setPc_setPc]

/-- The end of the child's `exit`, and the `wait` of its parent. -/
def waitOnce : List Act :=
  [.exec child .go, .exec child .go, .exec child .go, .exec child .go, .exec initproc .wait,
    .exec initproc .go, .exec initproc .go, .exec initproc .go]

theorem run_waitOnce (n : ℤ) (h : List Event) : ∃ h',
    run step ((exiting n h).setPc child (.exitWakeParent 0 (some (.proc initproc)) NPROC)) waitOnce =
      some (alone (int32 (n + 1)) h') := by
  refine ⟨_, run_eq_of rfl
    (Kernel.eq_of (fun q => ?_) rfl rfl (fun q => ?_) (fun q => ?_) (fun _ => rfl) rfl)⟩
  all_goals
    obtain rfl | rfl | ⟨hi, hc⟩ := slot_cases q
    · rfl
    · rfl
    · simp [exiting, withChild, alone, child, hc, hi]

/-- `initproc` forks, the child exits, and `initproc` waits for it. -/
def round : List Act :=
  forkOnce ++ [.schedule child, .exec child .go, .exec child (.exit 0)] ++
    List.replicate NPROC (.exec child .go) ++ [.exec child .go] ++
    List.replicate NPROC (.exec child .go) ++ waitOnce

theorem run_round (n : ℤ) (h : List Event) :
    ∃ h', run step (alone n h) round = some (alone (int32 (n + 1)) h') := by
  have hslot : ∀ q, ((exiting n h).proc q).parent ≠ some child ∧
      ((exiting n h).proc q).state ≠ .SLEEPING := by
    intro q
    obtain rfl | rfl | ⟨hi, hc⟩ := slot_cases q
    · exact ⟨nofun, nofun⟩
    · refine ⟨?_, nofun⟩
      show some initproc ≠ some child
      decide
    · simp [exiting, withChild, alone, child, hc, hi, freeproc]
  obtain ⟨h', hw⟩ := run_waitOnce n h
  have h1 : run step ((exiting n h).setPc child (.exitReparent 0 0))
      (List.replicate NPROC (.exec child .go)) =
      some ((exiting n h).setPc child (.exitReparent 0 (0 + NPROC))) :=
    run_reparent rfl (fun q => (hslot q).1) NPROC 0 (by omega)
  have h2 : run step ((exiting n h).setPc child (.exitWakeParent 0 (some (.proc initproc)) 0))
      (List.replicate NPROC (.exec child .go)) =
      some ((exiting n h).setPc child (.exitWakeParent 0 (some (.proc initproc)) (0 + NPROC))) :=
    run_wakeParent rfl (fun _ => rfl) (fun q => (hslot q).2) NPROC 0 (by omega)
  rw [Nat.zero_add] at h1 h2
  refine ⟨h', ?_⟩
  rw [round, run_append, run_append, run_append, run_append, run_append, run_forkOnce,
    Option.bind_some, run_exitStart, Option.bind_some, h1, Option.bind_some, run_exitMiddle,
    Option.bind_some, h2, Option.bind_some, hw]

theorem run_rounds (n : ℤ) (k : ℕ) : ∀ h, ∃ h',
    run step (alone (int32 n) h) (List.replicate k round).flatten =
      some (alone (int32 (n + k)) h') := by
  induction k with
  | zero => exact fun h => ⟨h, by simp⟩
  | succ k ih =>
    intro h
    obtain ⟨h1, hrun⟩ := ih h
    obtain ⟨h2, hround⟩ := run_round (int32 (n + k)) h1
    refine ⟨h2, ?_⟩
    rw [List.replicate_succ', List.flatten_append, List.flatten_singleton, run_append, hrun,
      Option.bind_some, hround, int32_int32_succ, Nat.cast_succ, add_assoc]

theorem run_forkAfter {n : ℤ} (k : ℕ) (hk : int32 (2 + k) = n) : ∃ s h,
    run step userinit ([.schedule initproc, .exec initproc .go] ++
      (List.replicate k round).flatten ++ forkOnce) = some s ∧
    (s.proc child).state = .RUNNABLE ∧ (s.proc child).pid = n ∧
    s.history = h ++ [.forked initproc child n] := by
  have hboot : run step userinit [.schedule initproc, .exec initproc .go] = some (alone 2 []) := by
    refine run_eq_of rfl
      (Kernel.eq_of (fun q => ?_) rfl rfl (fun q => ?_) (fun q => ?_) (fun _ => rfl) rfl)
    all_goals
      by_cases hi : q = initproc
      · rw [hi]
        rfl
      · simp [userinit, alone, hi, freeproc]
  obtain ⟨h, hrounds⟩ := run_rounds 2 k []
  rw [show int32 2 = 2 by simp [int32, Int.bmod], hk] at hrounds
  refine ⟨withChild n h .RUNNABLE .newborn, h, ?_, rfl, rfl, rfl⟩
  rw [run_append, run_append, hboot, Option.bind_some, hrounds, Option.bind_some, run_forkOnce]

/-- After 2147483646 rounds, `fork` makes a process with a negative pid, and returns it. -/
theorem fork_negative : ∃ s h, run step userinit ([.schedule initproc, .exec initproc .go] ++
      (List.replicate 2147483646 round).flatten ++ forkOnce) = some s ∧
    (s.proc child).state = .RUNNABLE ∧ (s.proc child).pid = -2147483648 ∧
    s.history = h ++ [.forked initproc child (-2147483648)] := by
  have hlast : int32 (2 + (2147483646 : ℕ)) = -2147483648 := by decide
  exact run_forkAfter 2147483646 hlast

end TatakOS.ProcTable
