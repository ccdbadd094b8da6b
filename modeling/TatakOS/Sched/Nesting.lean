import TatakOS.Base.Run
import TatakOS.Sched.Machine

/-!
# Nested critical sections

What `push_off`, `pop_off`, `sched` and `scheduler` do to `noff`, `intena` and the interrupt flag,
for kernel threads that take and release locks in any order and call `sched` wherever it does not
panic. `acquire(lk)` is `pushOff` and, once the lock is free, `take`; `release(lk)` is `drop` and
`popOff`. A thread goes on, on any CPU, from the context that it saved.
-/

namespace TatakOS.Sched.Nesting

open Function
open ProcTable (Slot initproc)

/-- The kernel thread of a process. The code knows nothing of `depth`, the number of calls of
`push_off` that are not popped, and of `outer`, the interrupt flag at the outermost of them. -/
structure Thread where
  onCpu : Bool := false
  /-- The variable of `sched`; `none` if the context begins at `forkret`. -/
  intena : Option Bool := none
  /-- A new thread begins under the `push_off` of `scheduler`. -/
  depth : ℕ := 1
  outer : Option Bool := none

structure State (C L : Type) where
  cpu : C → Cpu L
  th : Slot → Thread
  holder : Lock L → Option C

def start (C L : Type) : State C L where
  cpu _ := {}
  th _ := {}
  holder _ := none

inductive Act (C L : Type)
  | pushOff (c : C)
  | popOff (c : C)
  | take (c : C) (l : Lock L)
  | drop (c : C) (l : Lock L)
  /-- `intr_on`, `intr_off`, and the beginning and end of an interrupt. -/
  | setIntr (c : C) (b : Bool)
  /-- `sched`, and `scheduler` from its `swtch` to `release(&p->lock)`; the caller has changed
  `p->state`. -/
  | sched (c : C)
  /-- `scheduler` from `acquire(&p->lock)` to its `swtch`, and the end of `sched`; with `new`, the
  slot has been given to a new process. -/
  | load (c : C) (p : Slot) (new : Bool)

def Thread.push (intr : Bool) (t : Thread) : Thread :=
  { t with depth := t.depth + 1, outer := if t.depth = 0 then some intr else t.outer }

def Thread.pop (t : Thread) : Thread := { t with depth := t.depth - 1 }

section Step

variable {C L : Type} [DecidableEq C] [DecidableEq L] (s : State C L)

/-- CPU `c` becomes `x`, and `f` is done to the thread that it runs. -/
def State.put (c : C) (x : Cpu L) (f : Thread → Thread) : State C L :=
  { s with
    cpu := update s.cpu c x
    th := match (s.cpu c).proc with
      | none => s.th
      | some p => update s.th p (f (s.th p)) }

/-- A step; `none` is a panic, or that the step cannot be taken. -/
def step : Act C L → Option (State C L)
  | .pushOff c => some (s.put c (s.cpu c).pushOff (.push (s.cpu c).intr))
  | .popOff c => (s.cpu c).popOff.toOption.map fun x => s.put c x .pop
  | .take c l =>
    if s.holder l = none then some { s with holder := update s.holder l (some c) } else none
  | .drop c l =>
    if s.holder l = some c then some { s with holder := update s.holder l none } else none
  | .setIntr c b =>
    if (s.cpu c).noff = 0 then some (s.put c { s.cpu c with intr := b } id) else none
  | .sched c =>
    match (s.cpu c).proc with
    | none => none
    | some p =>
      if s.holder (.proc p) = some c ∧ (s.cpu c).noff = 1 ∧ (s.cpu c).intr = false then
        (s.cpu c).popOff.toOption.map fun x =>
          { s.put c { x with proc := none }
              ({ · with onCpu := false, intena := some (s.cpu c).intena }) with
            holder := update s.holder (.proc p) none }
      else none
  | .load c p new =>
    if (s.cpu c).proc = none ∧ (s.cpu c).noff = 0 ∧ s.holder (.proc p) = none ∧
        (s.th p).onCpu = false then
      let t := if new then {} else s.th p
      let x := (s.cpu c).pushOff
      some {
        cpu := update s.cpu c { x with proc := some p, intena := t.intena.getD x.intena }
        th := update s.th p { t with onCpu := true }
        holder := update s.holder (.proc p) (some c) }
    else none

end Step

/-! ## The invariant -/

variable {C L : Type}

/-- What holds of a thread that is switched away. -/
structure Thread.Saved (t : Thread) : Prop where
  depth : t.depth = 1
  intena : ∀ b, t.outer = some b → t.intena = some b

/-- What holds of a thread and its CPU. -/
structure Thread.Runs (t : Thread) (x : Cpu L) : Prop where
  onCpu : t.onCpu = true
  depth : x.noff = t.depth
  intena : 0 < t.depth → ∀ b, t.outer = some b → x.intena = b

structure Inv (s : State C L) : Prop where
  off : ∀ c, 0 < (s.cpu c).noff → (s.cpu c).intr = false
  runs : ∀ c p, (s.cpu c).proc = some p → (s.th p).Runs (s.cpu c)
  saved : ∀ p, (s.th p).onCpu = false → (s.th p).Saved
  one : ∀ c c' p, (s.cpu c).proc = some p → (s.cpu c').proc = some p → c = c'

theorem inv_start : Inv (start C L) := by
  refine ⟨fun c h => ?_, nofun, fun p _ => ⟨rfl, nofun⟩, nofun⟩
  cases h

section Steps

variable [DecidableEq C] {s s' : State C L} {c : C} {x y : Cpu L} {h : Lock L → Option C}

/-- CPU `c` goes on with `x`; no other CPU runs a thread that changes. -/
theorem Inv.update (hI : Inv s) {th : Slot → Thread} (hoff : 0 < x.noff → x.intr = false)
    (hx : ∀ q, x.proc = some q → (th q).Runs x ∧ ∀ c', c' ≠ c → (s.cpu c').proc ≠ some q)
    (hth : ∀ q, th q = s.th q ∨
      ((th q).onCpu = false → (th q).Saved) ∧ ∀ c', c' ≠ c → (s.cpu c').proc ≠ some q) :
    Inv { cpu := update s.cpu c x, th := th, holder := h } := by
  refine ⟨fun c' => ?_, fun c' q hq => ?_, fun q ho => ?_, fun c1 c2 q h1 h2 => ?_⟩
  · by_cases e : c' = c
    · simpa [e] using hoff
    · simpa [e] using hI.off c'
  · by_cases e : c' = c
    · simp only [e, update_self] at hq ⊢
      exact (hx q hq).1
    · simp only [update_of_ne e] at hq ⊢
      rw [(hth q).resolve_right fun h => h.2 c' e hq]
      exact hI.runs c' q hq
  · obtain e | ⟨hs, -⟩ := hth q
    · have hs := hI.saved q
      rw [← e] at hs
      exact hs ho
    · exact hs ho
  · by_cases e1 : c1 = c <;> by_cases e2 : c2 = c
    · rw [e1, e2]
    · simp only [e1, update_self, update_of_ne e2] at h1 h2
      exact absurd h2 ((hx q h1).2 c2 e2)
    · simp only [e2, update_self, update_of_ne e1] at h1 h2
      exact absurd h1 ((hx q h2).2 c1 e1)
    · simp only [update_of_ne e1, update_of_ne e2] at h1 h2
      exact hI.one c1 c2 q h1 h2

/-- A step of the code on CPU `c`, or its switch to `scheduler`. -/
theorem Inv.put (hI : Inv s) {f : Thread → Thread} (hoff : 0 < x.noff → x.intr = false)
    (hproc : ∀ q, x.proc = some q → (s.cpu c).proc = some q)
    (hf : ∀ t, t.Runs (s.cpu c) →
      (x.proc ≠ none → (f t).Runs x) ∧ ((f t).onCpu = false → (f t).Saved)) :
    Inv { s.put c x f with holder := h } := by
  have hone : ∀ q, (s.cpu c).proc = some q → ∀ c', c' ≠ c → (s.cpu c').proc ≠ some q :=
    fun q hq c' e hq' => e (hI.one c' c q hq' hq)
  refine hI.update hoff (fun q hq => ⟨?_, hone q (hproc q hq)⟩) fun q => ?_
  · simp only [State.put, hproc q hq, update_self]
    exact (hf _ (hI.runs c q (hproc q hq))).1 (by simp [hq])
  · cases hc : (s.cpu c).proc with
    | none =>
      left
      simp only [State.put, hc]
    | some p =>
      simp only [State.put, hc]
      by_cases e : q = p
      · subst e
        rw [update_self]
        exact .inr ⟨(hf _ (hI.runs c q hc)).2, hone q hc⟩
      · exact .inl (update_of_ne e _ _)

theorem popOff_ok (hy : x.popOff.toOption = some y) :
    0 < x.noff ∧ y = { x with noff := x.noff - 1, intr := x.noff - 1 = 0 ∧ x.intena = true } := by
  unfold Cpu.popOff at hy
  split_ifs at hy with h1 h2
  · cases hy
  · cases hy
  · exact ⟨by omega, (Option.some.inj hy).symm⟩

theorem Inv.step [DecidableEq L] (hI : Inv s) {a : Act C L} (hs : step s a = some s') : Inv s' := by
  cases a with simp only [Nesting.step] at hs
  | pushOff c =>
    cases hs
    refine hI.put (fun _ => rfl) (fun _ => id) fun t ht => ⟨fun _ => ⟨ht.onCpu, ?_, fun _ => ?_⟩, ?_⟩
    · exact congrArg (· + 1) ht.depth
    · simp only [Thread.push, Cpu.pushOff, ht.depth]
      by_cases h0 : t.depth = 0
      · simp [h0]
      · simpa [h0] using ht.intena (Nat.pos_of_ne_zero h0)
    · simp [Thread.push, ht.onCpu]
  | popOff c =>
    obtain ⟨x, hx, rfl⟩ := Option.map_eq_some_iff.mp hs
    obtain ⟨hpos, rfl⟩ := popOff_ok hx
    refine hI.put ?_ (fun _ => id) fun t ht => ⟨fun _ => ⟨ht.onCpu, ?_, fun _ => ?_⟩, ?_⟩
    · intro h
      simp only at h
      simp [Nat.ne_of_gt h]
    · exact congrArg (· - 1) ht.depth
    · exact ht.intena (ht.depth ▸ hpos)
    · simp [Thread.pop, ht.onCpu]
  | take c l | drop c l =>
    split_ifs at hs
    cases hs
    exact ⟨hI.off, hI.runs, hI.saved, hI.one⟩
  | setIntr c b =>
    split_ifs at hs with h0
    cases hs
    refine hI.put (fun h => ?_) (fun _ => id) fun t ht =>
      ⟨fun _ => ⟨ht.onCpu, ht.depth, ht.intena⟩, fun h => ?_⟩
    · simp [h0] at h
    · simp [ht.onCpu] at h
  | sched c =>
    split at hs
    · cases hs
    · rename_i p hp
      split_ifs at hs with hc
      obtain ⟨x, hx, rfl⟩ := Option.map_eq_some_iff.mp hs
      obtain ⟨-, rfl⟩ := popOff_ok hx
      refine hI.put (fun h => ?_) nofun fun t ht => ⟨fun h => absurd rfl h, fun _ => ⟨?_, ?_⟩⟩
      · simp [hc.2.1] at h
      · exact ht.depth.symm.trans hc.2.1
      · exact fun b hb => congrArg some (ht.intena (by rw [← ht.depth, hc.2.1]; decide) b hb)
  | load c p new =>
    split at hs
    swap
    · cases hs
    rename_i hc
    cases hs
    have hsaved : (if new then {} else s.th p).Saved := by
      cases new
      · exact hI.saved p hc.2.2.2
      · exact ⟨rfl, nofun⟩
    have hno : ∀ c', (s.cpu c').proc ≠ some p := by
      intro c' h
      have := (hI.runs c' p h).onCpu
      rw [hc.2.2.2] at this
      cases this
    refine hI.update (fun _ => rfl) (fun q hq => ?_) fun q => ?_
    · cases hq
      rw [update_self]
      refine ⟨⟨rfl, ?_, fun _ b hb => ?_⟩, fun c' _ => hno c'⟩
      · exact (congrArg (· + 1) hc.2.1).trans hsaved.depth.symm
      · show Option.getD _ _ = b
        rw [hsaved.intena b hb, Option.getD_some]
    · by_cases e : q = p
      · subst e
        rw [update_self]
        exact .inr ⟨nofun, fun c' _ => hno c'⟩
      · exact .inl (update_of_ne e _ _)

variable [DecidableEq L]

/-- In every state that is reached: interrupts are off inside a critical section, `noff` is the
nesting depth of the thread, and its last `pop_off` restores the flag that the first `push_off`
found. -/
theorem interrupts_restored (as : List (Act C L)) (hrun : run step (start C L) as = some s) :
    (∀ c, 0 < (s.cpu c).noff → (s.cpu c).intr = false) ∧
      ∀ c p, (s.cpu c).proc = some p → (s.cpu c).noff = (s.th p).depth ∧
        (0 < (s.th p).depth → ∃ s', step s (.popOff c) = some s' ∧
          (s'.th p).depth = (s.th p).depth - 1 ∧
          ((s.th p).depth = 1 → ∀ b, (s.th p).outer = some b → (s'.cpu c).intr = b)) := by
  have hI : Inv s := run_induct (fun _ _ _ hI hs => Inv.step hI hs) inv_start hrun
  refine ⟨hI.off, fun c p hp => ?_⟩
  obtain ⟨-, hd, hi⟩ := hI.runs c p hp
  refine ⟨hd, fun hpos => ?_⟩
  have hpop : (s.cpu c).popOff.toOption = some { s.cpu c with
      noff := (s.cpu c).noff - 1
      intr := (s.cpu c).noff - 1 = 0 ∧ (s.cpu c).intena = true } := by
    rw [Cpu.popOff, hI.off c (hd ▸ hpos), if_neg nofun, if_neg (by omega)]
    rfl
  refine ⟨_, by rw [step, hpop]; rfl, ?_, fun h1 b hb => ?_⟩
  · simp [State.put, hp, Thread.pop]
  · simp [State.put, hd, h1, hi hpos b hb]

/-- A thread enters a critical section with interrupts on, releases in the order of acquisition,
and goes on on another CPU. -/
def sampleRun : List (Act (Fin 2) Unit) :=
  let c : Fin 2 := ⟨0, Nat.two_pos⟩
  let d : Fin 2 := ⟨1, Nat.one_lt_two⟩
  [.load c initproc false, .drop c (.proc initproc), .popOff c, .setIntr c true, .pushOff c,
    .take c (.other ()), .pushOff c, .take c (.proc initproc), .drop c (.other ()), .popOff c,
    .sched c, .load d initproc false]

theorem interrupts_restored_elsewhere : ∃ s, run step (start (Fin 2) Unit) sampleRun = some s ∧
      (s.cpu 1).proc = some initproc ∧ (s.cpu 1).noff = 1 ∧ (s.cpu 1).intr = false ∧
      ∃ s', step s (.popOff 1) = some s' ∧ (s'.cpu 1).intr = true := by
  obtain ⟨s, hs, hp, hd, ho⟩ := exists_of_any (o := run step (start (Fin 2) Unit) sampleRun)
    (p := fun s => (s.cpu 1).proc = some initproc ∧ (s.th initproc).depth = 1 ∧
      (s.th initproc).outer = some true) (by decide +kernel)
  obtain ⟨hoff, hcpu⟩ := interrupts_restored _ hs
  obtain ⟨hn, hpop⟩ := hcpu 1 initproc hp
  obtain ⟨s', hs', -, hintr⟩ := hpop (by omega)
  exact ⟨s, hs, hp, hn.trans hd, hoff 1 (by omega), s', hs', hintr hd true ho⟩

end Steps

end TatakOS.Sched.Nesting
