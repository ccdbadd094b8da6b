import TatakOS.Sched.Control

/-!
# The invariant

A process belongs to at most one CPU: the one that runs its stack, or whose `scheduler` has chosen
it. What a CPU says about its process is `RunOk`; a process that belongs to no CPU is `Parked`. A
slot that a `fork` has allocated belongs to that `fork` until it is `RUNNABLE`.
-/

namespace TatakOS.Sched

open Function
open ProcTable (Slot Proc ProcState Chan)

variable {C L : Type}

/-! ## What holds in every state -/

def Run.locks : Run L → List (Lock L)
  | .thread th st => Sched.locks th st
  | .loading p | .leaving p => [.proc p]

/-- The process that belongs to a CPU. -/
def Run.owner : Run L → Option Slot
  | .thread (some p) _ | .loading p | .leaving p => some p
  | .thread none st => (chosen st).or (left st)

/-- `RUNNABLE` or `SLEEPING`. -/
def Waiting (x : ProcState) : Prop := x = .RUNNABLE ∨ x = .SLEEPING

section Parts

variable (pr : Slot → Proc) (ctx : Slot → List (Frame L)) (p : Slot) (x : Cpu L)

/-- `scheduler` has switched to `p`. -/
structure Switched : Prop where
  proc : x.proc = some p
  context : x.context = [.scheduler (.back p)]

/-- The CPU runs the stack of `p`. -/
structure OnProcess (st : List (Frame L)) : Prop extends Switched p x where
  legal : Legal (some p) st
  state : (pr p).state = stateOf st

/-- `scheduler` is about to load `p`. -/
structure Chosen : Prop where
  state : (pr p).state = .RUNNING
  saved : Saved p (ctx p)

/-- The process is switched away. -/
structure Parked : Prop where
  state : (pr p).state ≠ .RUNNING
  saved : Waiting (pr p).state → Saved p (ctx p)
  idle : ¬ Waiting (pr p).state → ∀ np, ¬ Forks (ctx p) np

/-- It has just been, and its lock is still held. -/
structure Left : Prop extends Parked pr ctx p where
  unused : (pr p).state ≠ .UNUSED
  used : (pr p).state ≠ .USED

/-- The CPU runs `scheduler`. -/
structure OnScheduler (st : List (Frame L)) : Prop where
  legal : Legal none st
  proc : x.proc = procOf st
  chosen : ∀ p, chosen st = some p → Chosen pr ctx p
  left : ∀ p, left st = some p → Left pr ctx p

/-- What a CPU relies on. -/
def RunOk : Run L → Prop
  | .thread (some p) st => OnProcess pr p x st
  | .thread none st => OnScheduler pr ctx x st
  | .loading p => Chosen pr ctx p ∧ Switched p x
  | .leaving p => Left pr ctx p ∧ Switched p x

end Parts

/-- The process `p`, on a CPU or switched away, has allocated `np` in `fork`. -/
def Forker (s : State C L) (p np : Slot) : Prop :=
  (∃ c st, (s.cpu c).run = .thread (some p) st ∧ Forks st np) ∨
    (∀ c st, (s.cpu c).run ≠ .thread (some p) st) ∧ Forks (s.context p) np

structure Inv (s : State C L) : Prop where
  panic : s.panic = none
  held : ∀ c, Held s.holder c (s.cpu c).run.locks (s.cpu c)
  run : ∀ c, RunOk s.proc s.context (s.cpu c) (s.cpu c).run
  unique : ∀ c c' p, (s.cpu c).run.owner = some p → (s.cpu c').run.owner = some p → c = c'
  parked : ∀ p, (∀ c, (s.cpu c).run.owner ≠ some p) → Parked s.proc s.context p
  used : ∀ p np, Forker s p np → (s.proc np).state = .USED ∧ s.context np = [.forkret]
  forker : ∀ p q np, Forker s p np → Forker s q np → p = q

variable {s : State C L} {c c' : C} {th : Option Slot} {p q np : Slot} {st st' : List (Frame L)}
  {f : Frame L}

theorem lock_of_left (h : left st = some p) : Lock.proc p ∈ locks none st := by
  unfold left at h
  split at h
  · cases h
    simp [Frame.locks]
  · cases h

theorem lock_of_chosen (h : chosen st = some p) : Lock.proc p ∈ locks none st := by
  unfold chosen at h
  split at h
  · cases h
    simp [Frame.locks]
  · cases h
    simp [Frame.locks]
  · cases h

variable {ctx : Slot → List (Frame L)}

theorem RunOk.owned {pr : Slot → Proc} {x : Cpu L} {r : Run L}
    (h : RunOk pr ctx x r) (ho : r.owner = some p) :
    (pr p).state = .RUNNING ∨
      (pr p).state ≠ .UNUSED ∧ (pr p).state ≠ .USED ∧ Lock.proc p ∈ r.locks := by
  cases r with
  | thread th st =>
    cases th with
    | none =>
      obtain ho | ⟨-, ho⟩ := Option.or_eq_some_iff.mp ho
      · exact .inl (h.chosen p ho).state
      · exact .inr ⟨(h.left p ho).unused, (h.left p ho).used, lock_of_left ho⟩
    | some p' =>
      cases ho
      have hs := h.state
      by_cases hr : stateOf st = .RUNNING
      · exact .inl (hs.trans hr)
      · refine .inr ⟨?_, ?_, h.legal.lock_mem hr⟩ <;>
          obtain e | e | e | e := stateOf_cases st <;> rw [hs, e] <;> nofun
  | loading p' =>
    cases ho
    exact .inl h.1.state
  | leaving p' =>
    cases ho
    exact .inr ⟨h.1.unused, h.1.used, List.mem_cons_self⟩

variable {ctx ctx' : Slot → List (Frame L)}

theorem Parked.congr {pr pr' : Slot → Proc}
    (h : Parked pr ctx p) (hs : (pr' p).state = (pr p).state) (hc : ctx' p = ctx p) :
    Parked pr' ctx' p where
  state := hs ▸ h.state
  saved := by
    rw [hs, hc]
    exact h.saved
  idle := by
    rw [hs, hc]
    exact h.idle

theorem Left.congr {pr pr' : Slot → Proc}
    (h : Left pr ctx p) (hs : (pr' p).state = (pr p).state) (hc : ctx' p = ctx p) :
    Left pr' ctx' p where
  toParked := h.toParked.congr hs hc
  unused := hs ▸ h.unused
  used := hs ▸ h.used

theorem owner_of_left (h : left st = some p) : (Run.thread none st).owner = some p := by
  unfold left at h
  split at h
  · exact h
  · cases h

theorem RunOk.congr {pr pr' : Slot → Proc} {x : Cpu L} {r : Run L} (h : RunOk pr ctx x r)
    (hs : ∀ p, r.owner = some p → (pr' p).state = (pr p).state ∧ ctx' p = ctx p) :
    RunOk pr' ctx' x r := by
  cases r with
  | thread th st =>
    cases th with
    | none =>
      refine ⟨h.legal, h.proc, fun p hp => ?_, fun p hp => ?_⟩
      · obtain ⟨h1, h2⟩ := hs p (by simp [Run.owner, hp])
        exact ⟨h1.trans (h.chosen p hp).state, h2 ▸ (h.chosen p hp).saved⟩
      · obtain ⟨h1, h2⟩ := hs p (owner_of_left hp)
        exact (h.left p hp).congr h1 h2
    | some p => exact ⟨h.toSwitched, h.legal, (hs p rfl).1.trans h.state⟩
  | loading p =>
    obtain ⟨h1, h2⟩ := hs p rfl
    exact ⟨⟨h1.trans h.1.state, h2 ▸ h.1.saved⟩, h.2⟩
  | leaving p =>
    obtain ⟨h1, h2⟩ := hs p rfl
    exact ⟨h.1.congr h1 h2, h.2⟩

theorem Legal.no_forks (h : Legal none st) : ¬ Forks st np := by
  generalize hth : (none : Option Slot) = th at h
  induction h with
  | scheduler k _ =>
    rintro ⟨f, hf, hc⟩
    rw [List.mem_singleton.mp hf] at hc
    cases hc
  | trap held _ _ ih | wakeup ch k _ _ ih =>
    rintro ⟨f, hf, hc⟩
    obtain rfl | hf := List.mem_cons.mp hf
    · cases hc
    · exact ih ⟨f, hf, hc⟩
  | code _ h | forkret h | sleep _ _ _ h | call _ h _ | yield _ h _ _ _ | sched _ h _ _ _
  | exit _ _ h _ => exact absurd hth.symm h

theorem not_forks_forkret : ¬ Forks ([.forkret] : List (Frame L)) np := by
  rintro ⟨f, hf, hc⟩
  rw [List.mem_singleton.mp hf] at hc
  cases hc

section

variable (hI : Inv s)
include hI

/-- A process whose lock CPU `c` holds, and that is not `RUNNING`, belongs to no other CPU. -/
theorem Inv.owner_eq (hl : s.holder (.proc p) = some c)
    (hs : (s.proc p).state ≠ .RUNNING) (ho : (s.cpu c').run.owner = some p) : c' = c := by
  obtain h | ⟨-, -, hm⟩ := (hI.run c').owned ho
  · exact absurd h hs
  · have := ((hI.held c').holder _).mpr hm
    rw [hl] at this
    exact (Option.some.inj this).symm

/-- A slot that is free or just allocated belongs to no CPU. -/
theorem Inv.not_owned (hs : (s.proc p).state = .UNUSED ∨ (s.proc p).state = .USED)
    (c : C) : (s.cpu c).run.owner ≠ some p := by
  intro ho
  obtain h | ⟨h1, h2, -⟩ := (hI.run c).owned ho
  · rw [h] at hs
    obtain hs | hs := hs <;> cases hs
  · exact hs.elim h1 h2

/-- The slot of a `fork` in progress on CPU `c` belongs to no other `fork`. -/
theorem Inv.forks_of (hrun : (s.cpu c).run = .thread th st) (hst : Forks st np)
    (hf : Forker s p np) : th = some p := by
  cases th with
  | none =>
    have hc := hI.run c
    rw [hrun] at hc
    exact absurd hst hc.legal.no_forks
  | some p' => exact congrArg some (hI.forker p' p np (.inl ⟨c, st, hrun, hst⟩) hf)

variable {s' : State C L}

variable [DecidableEq C]

omit hI in
/-- A step of a CPU that runs `p` neither before nor after it. -/
theorem Forker.of_run (h : Forker s' p np) {x : Cpu L} (hcpu : s'.cpu = update s.cpu c x)
    (hold : ∀ st, (s.cpu c).run ≠ .thread (some p) st)
    (hnew : ∀ st, x.run ≠ .thread (some p) st)
    (hctx : Forks (s'.context p) np → Forks (s.context p) np) : Forker s p np := by
  have hiff : ∀ c' st,
      (s'.cpu c').run = .thread (some p) st ↔ (s.cpu c').run = .thread (some p) st := by
    intro c' st
    rw [hcpu]
    by_cases e : c' = c
    · rw [e, update_self]
      exact ⟨fun h => absurd h (hnew st), fun h => absurd h (hold st)⟩
    · rw [update_of_ne e]
  obtain ⟨c', st, hr, hf⟩ | ⟨hno, hf⟩ := h
  · exact .inl ⟨c', st, (hiff c' st).mp hr, hf⟩
  · exact .inr ⟨fun c' st hr => hno c' st ((hiff c' st).mpr hr), hctx hf⟩

/-- What has to be shown for a step of CPU `c`. -/
theorem Inv.revise {x : Cpu L}
    (hcpu : s'.cpu = update s.cpu c x) (hpanic : s'.panic = none)
    (hheld : Held s'.holder c x.run.locks x)
    (hothers : ∀ c', c' ≠ c → Held s'.holder c' (s.cpu c').run.locks (s.cpu c'))
    (hok : RunOk s'.proc s'.context x x.run)
    (hsame : ∀ c' p, c' ≠ c → (s.cpu c').run.owner = some p →
      (s'.proc p).state = (s.proc p).state ∧ s'.context p = s.context p)
    (howner : ∀ p, x.run.owner = some p →
      (s.cpu c).run.owner = some p ∨ ∀ c', (s.cpu c').run.owner ≠ some p)
    (hparked : ∀ p, x.run.owner ≠ some p →
      ((s.cpu c).run.owner ≠ some p → Parked s.proc s.context p) → Parked s'.proc s'.context p)
    (hused : ∀ p np, Forker s' p np → (s'.proc np).state = .USED ∧ s'.context np = [.forkret])
    (hforker : ∀ p np, Forker s' p np →
      Forker s p np ∨ x.run.owner = some p ∧ ∀ q, ¬ Forker s q np) : Inv s' := by
  have hself : s'.cpu c = x := by rw [hcpu, update_self]
  have hother : ∀ c', c' ≠ c → s'.cpu c' = s.cpu c' := fun c' e => by
    rw [hcpu, update_of_ne e]
  have hunique : ∀ c' p, c' ≠ c → x.run.owner = some p → (s.cpu c').run.owner ≠ some p := by
    intro c' p e ho ho'
    obtain h | h := howner p ho
    · exact e (hI.unique c' c p ho' h)
    · exact h c' ho'
  refine ⟨hpanic, fun c' => ?_, fun c' => ?_, fun c1 c2 p h1 h2 => ?_, fun p hp => ?_, hused,
    fun p q np hp hq => ?_⟩
  · by_cases e : c' = c
    · rw [e, hself]
      exact hheld
    · rw [hother c' e]
      exact hothers c' e
  · by_cases e : c' = c
    · rw [e, hself]
      exact hok
    · rw [hother c' e]
      exact (hI.run c').congr fun p ho => hsame c' p e ho
  · by_cases e1 : c1 = c <;> by_cases e2 : c2 = c
    · rw [e1, e2]
    · rw [e1, hself] at h1
      rw [hother c2 e2] at h2
      exact absurd h2 (hunique c2 p e2 h1)
    · rw [e2, hself] at h2
      rw [hother c1 e1] at h1
      exact absurd h1 (hunique c1 p e1 h2)
    · rw [hother c1 e1] at h1
      rw [hother c2 e2] at h2
      exact hI.unique c1 c2 p h1 h2
  · refine hparked p (hself ▸ hp c) fun hc => hI.parked p fun c' => ?_
    by_cases e : c' = c
    · rw [e]
      exact hc
    · rw [← hother c' e]
      exact hp c'
  · obtain h1 | ⟨h1, hn⟩ := hforker p np hp
    · obtain h2 | ⟨-, hn⟩ := hforker q np hq
      · exact hI.forker p q np h1 h2
      · exact absurd h1 (hn p)
    · obtain h2 | ⟨h2, -⟩ := hforker q np hq
      · exact absurd h2 (hn q)
      · exact Option.some.inj (h1.symm.trans h2)

/-! ## Steps of a thread -/

/-- How CPU `c` may change the state of a process that is not on its stack. -/
structure Touch (s : State C L) (c : C) (st st' : List (Frame L)) (q : Slot) (y : ProcState) :
    Prop where
  lock : s.holder (.proc q) = some c
  old : (s.proc q).state ≠ .RUNNING
  new : y ≠ .RUNNING
  saved : Waiting y → Waiting (s.proc q).state ∨ s.context q = [.forkret]
  idle : ¬ Waiting y → ¬ Waiting (s.proc q).state
  used : (s.proc q).state = .USED → Forks st q ∧ ¬ Forks st' q
  left : left st ≠ some q

/-- Who forks after a step of thread `th` on CPU `c`. -/
theorem Forker.of_update (h : Forker s' p np)
    (hrun : (s.cpu c).run = .thread th st) {x : Cpu L} (hx : x.run = .thread th st')
    (hcpu : s'.cpu = update s.cpu c x)
    (hctx : ∀ q, Forks (s'.context q) np → Forks (s.context q) np) :
    Forker s p np ∧ th ≠ some p ∨ th = some p ∧ Forks st' np := by
  have hself : (s'.cpu c).run = .thread th st' := by rw [hcpu, update_self, hx]
  by_cases hth : th = some p
  · subst hth
    obtain ⟨c', st'', hr, hf⟩ | ⟨hno, -⟩ := h
    · by_cases e : c' = c
      · rw [e, hself] at hr
        cases hr
        exact .inr ⟨rfl, hf⟩
      · rw [hcpu, update_of_ne e] at hr
        exact absurd (hI.unique c' c p (by rw [hr]; rfl) (by rw [hrun]; rfl)) e
    · exact absurd hself (hno c st')
  · refine .inl ⟨h.of_run hcpu (fun st e => ?_) (fun st e => ?_) (hctx p), hth⟩
    · rw [hrun] at e
      cases e
      exact hth rfl
    · rw [hx] at e
      cases e
      exact hth rfl

/-- A step of thread `th` on CPU `c`, which goes on with the stack `st'`. -/
theorem Inv.thread (hrun : (s.cpu c).run = .thread th st) {x : Cpu L}
    (hx : x.run = .thread th st') {h : Lock L → Option C} {pr : Slot → Proc} {n : ℤ}
    (hheld : Held h c (locks th st') x)
    (hothers : ∀ c', c' ≠ c → Held h c' (s.cpu c').run.locks (s.cpu c'))
    (hok : RunOk pr s.context x (.thread th st'))
    (howner : (Run.thread th st').owner = (Run.thread th st).owner)
    (hpr : ∀ q, th ≠ some q → (pr q).state = (s.proc q).state ∨ Touch s c st st' q (pr q).state)
    (hforks : ∀ np, Forks st' np → Forks st np) :
    Inv { s with cpu := update s.cpu c x, holder := h, proc := pr, nextpid := n } := by
  have hown : x.run.owner = (s.cpu c).run.owner := by rw [hx, hrun, howner]
  have hth : ∀ q, (∀ c', (s.cpu c').run.owner ≠ some q) → th ≠ some q := by
    rintro q hq rfl
    refine hq c ?_
    rw [hrun]
    rfl
  -- What is touched belongs to no CPU.
  have hfree : ∀ q, th ≠ some q → Touch s c st st' q (pr q).state →
      ∀ c', (s.cpu c').run.owner ≠ some q := by
    intro q hq ht c' ho
    obtain rfl := hI.owner_eq ht.lock ht.old ho
    have hc := hI.run c'
    rw [hrun] at ho hc
    cases th with
    | none =>
      obtain ho | ⟨-, ho⟩ := Option.or_eq_some_iff.mp ho
      · exact ht.old (hc.chosen q ho).state
      · exact ht.left ho
    | some p' => exact hq ho
  -- A `fork` that goes on has been there before; if it is that of CPU `c`, it is still in `st'`.
  have hforker : ∀ p np, Forker { s with
      cpu := update s.cpu c x, holder := h, proc := pr, nextpid := n } p np →
      Forker s p np ∧ (Forks st np → Forks st' np) := by
    intro p np hf
    obtain ⟨hf, hne⟩ | ⟨rfl, hf⟩ := hf.of_update hI hrun hx rfl fun _ => id
    · exact ⟨hf, fun hst => absurd (hI.forks_of hrun hst hf) hne⟩
    · exact ⟨.inl ⟨c, st, hrun, hforks np hf⟩, fun _ => hf⟩
  refine hI.revise rfl hI.panic (hx ▸ hheld) hothers (hx ▸ hok) ?_ ?_ ?_ ?_ ?_
  · intro c' p e ho
    refine ⟨?_, rfl⟩
    have hne : th ≠ some p := by
      rintro rfl
      refine e (hI.unique c' c p ho ?_)
      rw [hrun]
      rfl
    exact (hpr p hne).resolve_right fun ht => hfree p hne ht c' ho
  · exact fun p ho => .inl (hown ▸ ho)
  · intro p hpc hold
    have hold := hold (hown ▸ hpc)
    obtain he | ht := hpr p (by rintro rfl; exact hpc (by rw [hx]; rfl))
    · exact hold.congr he rfl
    · refine ⟨ht.new, fun hw => ?_, fun hw => hold.idle (ht.idle hw)⟩
      obtain hw' | hw' := ht.saved hw
      · exact hold.saved hw'
      · show Saved p (s.context p)
        rw [hw']
        exact saved_forkret
  · intro p np hf
    obtain ⟨hfs, hback⟩ := hforker p np hf
    obtain ⟨hu, hc⟩ := hI.used p np hfs
    refine ⟨?_, hc⟩
    obtain he | ht := hpr np (hth np (hI.not_owned (.inr hu)))
    · exact he.trans hu
    · obtain ⟨h1, h2⟩ := ht.used hu
      exact absurd (hback h1) h2
  · exact fun p np hf => .inl (hforker p np hf).1

theorem Inv.allocproc (hrun : (s.cpu c).run = .thread (some p) st) {x : Cpu L}
    (hx : x = { s.cpu c with run := .thread (some p) st' })
    (hlocks : locks (some p) st' = locks (some p) st) (hlegal : Legal (some p) st')
    (hstate : stateOf st' = stateOf st) (hu : (s.proc q).state = .UNUSED) {y : Proc}
    (hy : y.state = .USED) {n : ℤ} (hforks : ∀ np, Forks st' np → Forks st np ∨ np = q) :
    Inv { s with
      cpu := update s.cpu c x
      proc := update s.proc q y
      context := update s.context q [.forkret]
      nextpid := n } := by
  have hfree := hI.not_owned (.inl hu)
  have hne : ∀ {c' p}, (s.cpu c').run.owner = some p → p ≠ q := by
    rintro c' p ho rfl
    exact hfree c' ho
  have hp : (s.cpu c).run.owner = some p := by
    rw [hrun]
    rfl
  have hc := hI.run c
  have hh := hI.held c
  rw [hrun] at hc hh
  have hxrun : x.run = .thread (some p) st' := by rw [hx]
  have hforker : ∀ p' np, Forker { s with
      cpu := update s.cpu c x
      proc := update s.proc q y
      context := update s.context q [.forkret]
      nextpid := n } p' np → Forker s p' np ∨ p' = p ∧ np = q := by
    intro p' np hf
    have hctx : ∀ r, Forks (update s.context q [.forkret] r) np → Forks (s.context r) np := by
      intro r hr
      by_cases e : r = q
      · rw [e, update_self] at hr
        exact absurd hr not_forks_forkret
      · rwa [update_of_ne e] at hr
    obtain ⟨h1, -⟩ | ⟨e, h1⟩ := hf.of_update hI hrun hxrun rfl hctx
    · exact .inl h1
    · obtain h2 | h2 := hforks np h1
      · exact .inl (.inl ⟨c, st, Option.some.inj e ▸ hrun, h2⟩)
      · exact .inr ⟨(Option.some.inj e).symm, h2⟩
  have hnew : ∀ p', Forker s p' q → False := by
    intro p' hf
    have := (hI.used p' q hf).1
    rw [hu] at this
    cases this
  refine hI.revise rfl hI.panic ?_ (fun c' _ => hI.held c') ?_ ?_ ?_ ?_ ?_ ?_
  · rw [hxrun]
    show Held s.holder c (locks (some p) st') x
    rw [hlocks]
    exact hh.congr (by rw [hx]) (by rw [hx])
  · rw [hxrun]
    refine ⟨⟨by rw [hx]; exact hc.proc, by rw [hx]; exact hc.context⟩, hlegal, ?_⟩
    show (update s.proc q y p).state = _
    rw [update_of_ne (hne hp), hstate]
    exact hc.state
  · intro c' p' _ ho
    show (update s.proc q y p').state = _ ∧ update s.context q _ p' = _
    rw [update_of_ne (hne ho), update_of_ne (hne ho)]
    exact ⟨rfl, rfl⟩
  · intro p' ho
    rw [hxrun] at ho
    exact .inl (hp.trans ho)
  · intro p' hpc hold
    rw [hxrun] at hpc
    by_cases e : p' = q
    · subst e
      refine ⟨?_, ?_, ?_⟩
      all_goals
        show _
        simp only [update_self, hy]
      · nofun
      · rintro (h | h) <;> cases h
      · exact fun _ np => not_forks_forkret
    · exact (hold (hp ▸ hpc)).congr (congrArg Proc.state (update_of_ne e _ _))
        (update_of_ne e _ _)
  · intro p' np hf
    show (update s.proc q y np).state = _ ∧ update s.context q _ np = _
    obtain h1 | ⟨-, h1⟩ := hforker p' np hf
    · have hnp : np ≠ q := fun e => hnew p' (e ▸ h1)
      rw [update_of_ne hnp, update_of_ne hnp]
      exact hI.used p' np h1
    · rw [h1, update_self, update_self]
      exact ⟨hy, rfl⟩
  · intro p' np hf
    refine (hforker p' np hf).imp_right ?_
    rintro ⟨rfl, rfl⟩
    exact ⟨by rw [hxrun]; rfl, hnew⟩

/-! ## Context switches -/

theorem Inv.choose (hrun : (s.cpu c).run = .thread none [.scheduler (.test q)])
    (hr : (s.proc q).state = .RUNNABLE) {x : Cpu L}
    (hx : x = { s.cpu c with run := .thread none [.scheduler (.setProc q)] }) {y : Proc}
    (hy : y.state = .RUNNING) :
    Inv { s with cpu := update s.cpu c x, proc := update s.proc q y } := by
  have hc := hI.run c
  have hh := hI.held c
  rw [hrun] at hc hh
  have hxrun : x.run = .thread none [.scheduler (.setProc q)] := by rw [hx]
  have hlock : s.holder (.proc q) = some c := (hh.holder _).mpr List.mem_cons_self
  have hfree : ∀ c', (s.cpu c').run.owner ≠ some q := by
    intro c' ho
    obtain rfl := hI.owner_eq hlock (by rw [hr]; nofun) ho
    rw [hrun] at ho
    cases ho
  have hsame : ∀ p, p ≠ q → update s.proc q y p = s.proc p := fun p e =>
    update_of_ne e _ _
  have hforker : ∀ p np, Forker { s with
      cpu := update s.cpu c x, proc := update s.proc q y } p np →
      Forker s p np := by
    exact fun p np hf => hf.of_run rfl (by rw [hrun]; nofun) (by rw [hxrun]; nofun) id
  refine hI.revise rfl hI.panic ?_ (fun c' _ => hI.held c') ?_ ?_ ?_ ?_ ?_ ?_
  · rw [hxrun]
    exact hh.congr (by rw [hx]) (by rw [hx])
  · rw [hxrun]
    refine ⟨.scheduler _ rfl, by rw [hx]; exact hc.proc, fun p hp => ?_, nofun⟩
    cases hp
    refine ⟨?_, (hI.parked q hfree).saved (.inl hr)⟩
    show (update s.proc q y q).state = _
    rw [update_self, hy]
  · intro c' p e ho
    show (update s.proc q y p).state = _ ∧ _
    rw [hsame p (by rintro rfl; exact hfree c' ho)]
    exact ⟨rfl, rfl⟩
  · intro p ho
    rw [hxrun] at ho
    cases ho
    exact .inr hfree
  · intro p hpc hold
    have hne : p ≠ q := by
      rintro rfl
      rw [hxrun] at hpc
      exact hpc rfl
    exact (hold (by rw [hrun]; nofun)).congr (congrArg Proc.state (hsame p hne)) rfl
  · intro p np hf
    obtain ⟨hu, hctx⟩ := hI.used p np (hforker p np hf)
    have hne : np ≠ q := by
      rintro rfl
      rw [hr] at hu
      cases hu
    show (update s.proc q y np).state = _ ∧ _
    rw [hsame np hne]
    exact ⟨hu, hctx⟩
  · exact fun p np hf => .inl (hforker p np hf)

/-- A context switch changes neither the process table nor which process belongs to the CPU. -/
theorem Inv.switch {x : Cpu L} (hlocks : x.run.locks = (s.cpu c).run.locks)
    (hn : x.noff = (s.cpu c).noff) (hi : x.intr = (s.cpu c).intr)
    (hown : x.run.owner = (s.cpu c).run.owner) (hok : RunOk s.proc s.context x x.run)
    (hforker : ∀ p np, Forker { s with cpu := update s.cpu c x } p np → Forker s p np) :
    Inv (s.setCpu c x) := by
  refine hI.revise rfl hI.panic ?_ (fun c' _ => hI.held c') hok (fun _ _ _ _ => ⟨rfl, rfl⟩) ?_ ?_ ?_ ?_
  · rw [hlocks]
    exact (hI.held c).congr hn hi
  · exact fun p ho => .inl (hown ▸ ho)
  · exact fun p hpc hold => hold (hown ▸ hpc)
  · exact fun p np hf => hI.used p np (hforker p np hf)
  · exact fun p np hf => .inl (hforker p np hf)

/-- `swtch` in `scheduler` saves `c->context`. -/
theorem Inv.load (hrun : (s.cpu c).run = .thread none [.scheduler (.swtch q)]) :
    Inv (s.setCpu c { s.cpu c with context := [.scheduler (.back q)], run := .loading q }) := by
  have hc := hI.run c
  rw [hrun] at hc
  refine hI.switch ?_ rfl rfl ?_ ⟨hc.chosen q rfl, hc.proc, rfl⟩ fun p np hf => ?_
  · rw [hrun]
    rfl
  · rw [hrun]
    rfl
  · exact hf.of_run rfl (by rw [hrun]; nofun) nofun id

theorem Inv.loaded (hrun : (s.cpu c).run = .loading p) :
    Inv (s.setCpu c { s.cpu c with run := .thread (some p) (s.context p) }) := by
  have hc := hI.run c
  rw [hrun] at hc
  obtain ⟨hch, hsw⟩ := hc
  refine hI.switch ?_ rfl rfl ?_ ⟨⟨hsw.proc, hsw.context⟩, hch.saved.legal, ?_⟩ fun p' np hf => ?_
  · rw [hrun]
    exact hch.saved.locks
  · rw [hrun]
    rfl
  · rw [hch.state, hch.saved.running]
  · have hnone : ∀ c' st, (s.cpu c').run ≠ .thread (some p) st := by
      intro c' st h
      obtain rfl : c' = c := hI.unique c' c p (by rw [h]; rfl) (by rw [hrun]; rfl)
      rw [hrun] at h
      cases h
    by_cases ep : p' = p
    · subst ep
      obtain ⟨c', st, hr, hf⟩ | ⟨hno, -⟩ := hf
      · by_cases e : c' = c
        · simp only [e, update_self] at hr
          cases hr
          exact .inr ⟨hnone, hf⟩
        · simp only [update_of_ne e] at hr
          exact absurd hr (hnone c' st)
      · exact absurd (congrArg Cpu.run (update_self c _ s.cpu)) (hno c (s.context p'))
    · refine hf.of_run rfl (by rw [hrun]; nofun) (fun st h => ?_) id
      cases h
      exact ep rfl

omit hI in
/-- What `sched` returns to holds only the lock of its process. -/
theorem Legal.locks_resumes (h : Legal (some p) (f :: st)) (hf : f.resumes = true) :
    locks (some p) (f :: st) = [.proc p] := by
  rw [locks_cons, Frame.locks_of_resumes hf]
  cases h with
  | sleep ch l k h => rfl
  | call f h hf' => rfl
  | yield k h hst hl => rw [hl, List.append_nil]
  | _ => cases hf

omit hI in
theorem forks_cons_of {g g' : Frame L} (hg : g.child = none) (h : Forks (g :: st) np) :
    Forks (g' :: st) np := by
  obtain ⟨f, hf, hc⟩ := h
  obtain rfl | hf := List.mem_cons.mp hf
  · rw [hg] at hc
    cases hc
  · exact ⟨f, List.mem_cons_of_mem _ hf, hc⟩

omit hI in
theorem Legal.sched_cases {k : SchedPc} (h : Legal (some p) (.sched k :: st)) :
    (∃ f st', st = f :: st' ∧ Legal (some p) (f :: st') ∧ f.resumes = true) ∨
      ∃ status, st = [.exit status .dead, .code []] ∧ k.before = true := by
  cases h with
  | call f h hf => cases hf
  | sched k h hst hf => exact .inl ⟨_, _, rfl, hst, hf⟩
  | exit k status h hk => exact .inr ⟨status, rfl, hk⟩

omit hI in
/-- A process that has called `sched` is parked once its context is saved. -/
theorem left_of_sched {pr : Slot → Proc} {b : Bool}
    (hs : (pr p).state = stateOf (.sched (.swtch b) :: st))
    (hctx : ctx p = .sched (.back b) :: st)
    (hcases : (∃ f st', st = f :: st' ∧ Legal (some p) (f :: st') ∧ f.resumes = true) ∨
      ∃ status, st = [.exit status .dead, .code []] ∧ (SchedPc.swtch b).before = true) :
    Left pr ctx p := by
  obtain ⟨f, st', rfl, hst, hf⟩ | ⟨status, rfl, -⟩ := hcases
  · have hw : Waiting (pr p).state := by
      rw [hs]
      cases f with
      | yield k => exact .inl rfl
      | sleep ch lk k => exact .inr rfl
      | _ => cases hf
    have hsaved : Saved p (.sched (.back b) :: f :: st') :=
      ⟨.sched _ nofun hst hf, hst.locks_resumes hf, rfl⟩
    refine ⟨⟨?_, fun _ => hctx ▸ hsaved, fun hn => absurd hw hn⟩, ?_, ?_⟩
    all_goals
      obtain h | h := hw <;> rw [h] <;> nofun
  · have hz : (pr p).state = .ZOMBIE := hs
    refine ⟨⟨?_, fun h => ?_, fun _ np hf => ?_⟩, ?_, ?_⟩
    · rw [hz]
      nofun
    · rw [hz] at h
      obtain h | h := h <;> cases h
    · rw [hctx] at hf
      simp [Forks, Frame.child] at hf
    · rw [hz]
      nofun
    · rw [hz]
      nofun

/-- `swtch` in `sched` saves `p->context`. -/
theorem Inv.leave {b : Bool}
    (hrun : (s.cpu c).run = .thread (some p) (.sched (.swtch b) :: st)) :
    Inv { s.setCpu c { s.cpu c with run := .leaving p } with
      context := update s.context p (.sched (.back b) :: st) } := by
  have hc := hI.run c
  have hh := hI.held c
  rw [hrun] at hc hh
  have hp : (s.cpu c).run.owner = some p := by
    rw [hrun]
    rfl
  have hne : ∀ {c' p'}, c' ≠ c → (s.cpu c').run.owner = some p' → p' ≠ p := by
    rintro c' p' e ho rfl
    exact e (hI.unique c' c p' ho hp)
  have hcases := hc.legal.sched_cases
  have hlocks : locks (some p) (.sched (.swtch b) :: st) = [.proc p] := by
    obtain ⟨f, st', rfl, hst, hf⟩ | ⟨status, rfl, -⟩ := hcases
    · exact hst.locks_resumes hf
    · rfl
  have hctx : ∀ p', p' ≠ p → update s.context p (.sched (.back b) :: st) p' = s.context p' :=
    fun p' e => update_of_ne e _ _
  have hself : update s.context p (.sched (.back b) :: st) p = .sched (.back b) :: st :=
    update_self _ _ _
  have hforker : ∀ p' np, Forker { s.setCpu c { s.cpu c with run := .leaving p } with
      context := update s.context p (.sched (.back b) :: st) } p' np → Forker s p' np := by
    intro p' np hf
    by_cases ep : p' = p
    · subst ep
      obtain ⟨c', st', hr, hf⟩ | ⟨-, hf⟩ := hf
      · by_cases e : c' = c
        · simp only [e, State.setCpu, update_self] at hr
          cases hr
        · simp only [State.setCpu, update_of_ne e] at hr
          exact .inl ⟨c', st', hr, hf⟩
      · simp only [hself] at hf
        exact .inl ⟨c, _, hrun, forks_cons_of rfl hf⟩
    · refine hf.of_run rfl (fun st' h => ?_) nofun fun h => hctx p' ep ▸ h
      rw [hrun] at h
      cases h
      exact ep rfl
  have hleft : Left s.proc (update s.context p (.sched (.back b) :: st)) p :=
    left_of_sched hc.state hself hcases
  refine hI.revise rfl hI.panic ?_ (fun c' _ => hI.held c') ⟨hleft, hc.proc, hc.context⟩ ?_ ?_ ?_ ?_ ?_
  · have hh' : Held s.holder c (locks (some p) (.sched (.swtch b) :: st)) (s.cpu c) := hh
    rw [hlocks] at hh'
    exact hh'.congr rfl rfl
  · intro c' p' e ho
    exact ⟨rfl, hctx p' (hne e ho)⟩
  · exact fun p' ho => .inl (hp.trans ho)
  · intro p' hpc hold
    exact (hold (hp ▸ hpc)).congr rfl (hctx p' fun e => hpc (congrArg some e).symm)
  · intro p' np hf
    obtain ⟨hu, hcx⟩ := hI.used p' np (hforker p' np hf)
    refine ⟨hu, (hctx np ?_).trans hcx⟩
    rintro rfl
    exact hI.not_owned (.inr hu) c hp
  · exact fun p np hf => .inl (hforker p np hf)

theorem Inv.left (hrun : (s.cpu c).run = .leaving p) :
    Inv (s.setCpu c { s.cpu c with run := .thread none (s.cpu c).context }) := by
  have hc := hI.run c
  rw [hrun] at hc
  obtain ⟨hleft, hsw⟩ := hc
  rw [hsw.context]
  refine hI.switch ?_ rfl rfl ?_ ⟨.scheduler _ rfl, hsw.proc, nofun, fun p' hp' => ?_⟩
    fun p np hf => ?_
  · rw [hrun]
    rfl
  · rw [hrun]
    rfl
  · cases hp'
    exact hleft
  · exact hf.of_run rfl (by rw [hrun]; nofun) nofun id

/-- `c->proc = 0`: `scheduler` lets go of the process. -/
theorem Inv.back (hrun : (s.cpu c).run = .thread none [.scheduler (.back p)]) :
    Inv (s.setCpu c { s.cpu c with
      proc := none, run := .thread none [.scheduler (.release p)] }) := by
  have hc := hI.run c
  have hh := hI.held c
  rw [hrun] at hc hh
  have hp : (s.cpu c).run.owner = some p := by
    rw [hrun]
    rfl
  have hforker : ∀ p' np, Forker (s.setCpu c { s.cpu c with
      proc := none, run := .thread none [.scheduler (.release p)] }) p' np → Forker s p' np := by
    exact fun p' np hf => hf.of_run rfl (by rw [hrun]; nofun) nofun id
  refine hI.revise rfl hI.panic (hh.congr rfl rfl) (fun c' _ => hI.held c')
    ⟨.scheduler _ rfl, rfl, nofun, nofun⟩ (fun _ _ _ _ => ⟨rfl, rfl⟩) nofun ?_ ?_ ?_
  · intro p' _ hold
    by_cases e : p' = p
    · rw [e]
      exact (hc.left p rfl).toParked
    · refine hold ?_
      rw [hp]
      exact fun h => e (Option.some.inj h).symm
  · exact fun p' np hf => hI.used p' np (hforker p' np hf)
  · exact fun p np hf => .inl (hforker p np hf)

end

end TatakOS.Sched
