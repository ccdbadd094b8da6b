import TatakOS.Proc.Control
import TatakOS.Sched.Invariant

/-!
# Every instruction keeps the invariant

`Fits` says what an instruction needs; `Inv.perform` shows that it is enough. The code of each
function is then gone through once, to see that its instructions fit.
-/

namespace TatakOS.Sched

open Function
open ProcTable (Slot Proc ProcState Chan NPROC initproc freeproc wakeup1 kill1)

variable {C L : Type} {s s' : State C L} {c : C} {th : Option Slot} {p q np : Slot}
  {st st' : List (Frame L)} {f : Frame L} {l : Lock L}

@[simp] theorem forks_nil : ¬ Forks ([] : List (Frame L)) np := nofun

@[simp] theorem forks_cons : Forks (f :: st) np ↔ f.child = some np ∨ Forks st np := by
  simp [Forks]

/-- The stack changes, and with it nothing that the CPU says about its process. -/
structure Goes (th : Option Slot) (st st' : List (Frame L)) : Prop where
  legal : Legal th st'
  state : stateOf st' = stateOf st
  proc : procOf st' = procOf st
  chosen : chosen st' = chosen st
  left : left st' = left st
  forks : ∀ np, Forks st' np → Forks st np

theorem Goes.owner (h : Goes th st st') : (Run.thread th st').owner = (Run.thread th st).owner := by
  cases th with
  | none =>
    show (Sched.chosen st').or (Sched.left st') = (Sched.chosen st).or (Sched.left st)
    rw [h.chosen, h.left]
  | some p => rfl

theorem Goes.runOk (h : Goes th st st') {pr pr' : Slot → Proc} {ctx : Slot → List (Frame L)}
    {x x' : Cpu L} (hok : RunOk pr ctx x (.thread th st)) (hp : x'.proc = x.proc)
    (hc : x'.context = x.context)
    (hpr : ∀ p, (Run.thread th st).owner = some p → (pr' p).state = (pr p).state) :
    RunOk pr' ctx x' (.thread th st') := by
  cases th with
  | none =>
    refine ⟨h.legal, ?_, fun p hch => ?_, fun p hlf => ?_⟩
    · rw [hp, h.proc]
      exact hok.proc
    · rw [h.chosen] at hch
      have ho : (Run.thread none st).owner = some p := by simp [Run.owner, hch]
      exact ⟨(hpr p ho).trans (hok.chosen p hch).state, (hok.chosen p hch).saved⟩
    · rw [h.left] at hlf
      exact (hok.left p hlf).congr (hpr p (owner_of_left hlf)) rfl
  | some p =>
    refine ⟨⟨hp.trans hok.proc, hc.trans hok.context⟩, h.legal, ?_⟩
    rw [hpr p rfl, h.state]
    exact hok.state

/-- What an instruction needs. -/
inductive Fits (s : State C L) (c : C) (th : Option Slot) (st : List (Frame L)) : Instr L → Prop
  | goto {st' : List (Frame L)} (hg : Goes th st st') (hl : (locks th st).Perm (locks th st')) :
    Fits s c th st (.goto st')
  | acquire {l : Lock L} {st' : List (Frame L)} (hg : Goes th st st') (hn : l ∉ locks th st)
    (hl : (l :: locks th st).Perm (locks th st')) : Fits s c th st (.acquire l st')
  | release {l : Lock L} {st' : List (Frame L)} (hg : Goes th st st')
    (hl : (locks th st).Perm (l :: locks th st')) : Fits s c th st (.release l st')
  | setIntr {b : Bool} {st' : List (Frame L)} (hg : Goes th st st') (h : locks th st = [])
    (h' : locks th st' = []) : Fits s c th st (.setIntr b st')
  | setIntena {b : Bool} {st' : List (Frame L)} (hg : Goes th st st')
    (hl : (locks th st).Perm (locks th st')) : Fits s c th st (.setIntena b st')
  | setProc {q : Slot} (hth : th = none) (hst : st = [.scheduler (.setProc q)]) :
    Fits s c th st (.setProc (some q) [.scheduler (.swtch q)])
  | back {q : Slot} (hth : th = none) (hst : st = [.scheduler (.back q)]) :
    Fits s c th st (.setProc none [.scheduler (.release q)])
  /-- The state of a process stays as it is, or a process is touched that has no CPU. -/
  | set {q : Slot} {x : Proc} {st' : List (Frame L)} (hg : Goes th st st')
    (hl : (locks th st).Perm (locks th st'))
    (hx : x.state = (s.proc q).state ∨ th ≠ some q ∧ Touch s c st st' q x.state) :
    Fits s c th st (.set q x st')
  /-- The process of this CPU changes its own state. -/
  | setOwn {p : Slot} {x : Proc} {st' : List (Frame L)} (hth : th = some p) (hlegal : Legal th st')
    (hx : x.state = stateOf st') (hforks : ∀ np, Forks st' np → Forks st np)
    (hl : (locks th st).Perm (locks th st')) : Fits s c th st (.set p x st')
  | choose {q : Slot} {x : Proc} (hth : th = none) (hst : st = [.scheduler (.test q)])
    (hr : (s.proc q).state = .RUNNABLE) (hx : x.state = .RUNNING) :
    Fits s c th st (.set q x [.scheduler (.setProc q)])
  | allocproc {p q : Slot} {st' : List (Frame L)} (hth : th = some p)
    (hl : locks th st' = locks th st) (hlegal : Legal th st') (hs : stateOf st' = stateOf st)
    (hu : (s.proc q).state = .UNUSED) (hforks : ∀ np, Forks st' np → Forks st np ∨ np = q) :
    Fits s c th st (.allocproc q st')
  | load {q : Slot} (hth : th = none) (hst : st = [.scheduler (.swtch q)]) :
    Fits s c th st (.load q [.scheduler (.back q)])
  | leave {p : Slot} {b : Bool} {st' : List (Frame L)} (hth : th = some p)
    (hst : st = .sched (.swtch b) :: st') : Fits s c th st (.leave p (.sched (.back b) :: st'))

/-! ## Where the CPU says nothing unusual -/

/-- The process of the CPU is `RUNNING`, or it runs `scheduler` with no process chosen. -/
structure Quiet (st : List (Frame L)) : Prop where
  state : stateOf st = .RUNNING
  proc : procOf st = none
  chosen : chosen st = none
  left : left st = none

theorem Quiet.goes (h : Quiet st) (h' : Quiet st') (hlegal : Legal th st')
    (hforks : ∀ np, Forks st' np → Forks st np) : Goes th st st' where
  legal := hlegal
  state := h'.state.trans h.state.symm
  proc := h'.proc.trans h.proc.symm
  chosen := h'.chosen.trans h.chosen.symm
  left := h'.left.trans h.left.symm
  forks := hforks

/-- The usual case: the frames say the same, and there is no new `fork`. -/
theorem goes (hlegal : Legal th st')
    (h : (stateOf st', procOf st', chosen st', left st', st'.filterMap Frame.child) =
      (stateOf st, procOf st, chosen st, left st, st.filterMap Frame.child)) : Goes th st st' := by
  simp only [Prod.mk.injEq] at h
  obtain ⟨hs, hp, hc, hl, hf⟩ := h
  exact ⟨hlegal, hs, hp, hc, hl, fun _ hn => List.mem_filterMap.mp (hf ▸ List.mem_filterMap.mpr hn)⟩

theorem Quiet.pop (h : Quiet st) (hst : Legal th st) (hf : Quiet (f :: st)) : Goes th (f :: st) st :=
  hf.goes h hst fun _ hn => forks_cons.mpr (.inr hn)

theorem Legal.quiet (h : Legal th st) (hl : ∀ p, Lock.proc p ∉ locks th st) : Quiet st := by
  have hrun : ∀ p, th = some p → stateOf st = .RUNNING := by
    rintro p rfl
    by_contra hs
    exact hl p (h.lock_mem hs)
  cases h with
  | scheduler k h =>
    cases k with
    | loop | acquire => exact ⟨rfl, rfl, rfl, rfl⟩
    | test i | setProc i | swtch i | back i | release i => exact absurd List.mem_cons_self (hl i)
  | code | forkret | sleep | trap | yield | wakeup => exact ⟨rfl, rfl, rfl, rfl⟩
  | call f h hf =>
    obtain ⟨p, rfl⟩ := Option.ne_none_iff_exists'.mp h
    cases f with
    | scheduler => cases hf
    | _ => exact ⟨hrun p rfl, rfl, rfl, rfl⟩
  | sched k h hst hf | exit k status h hk =>
    obtain ⟨p, rfl⟩ := Option.ne_none_iff_exists'.mp h
    exact ⟨hrun p rfl, rfl, rfl, rfl⟩

theorem Legal.quiet_of_nil (h : Legal th st) (hl : locks th st = []) : Quiet st :=
  h.quiet fun p => by simp [hl]

theorem sleepLock_ne (lk : Option L) : sleepLock lk ≠ .proc p := by
  cases lk <;> nofun

theorem locks_sleepReturn (lk : Option L) : (sleepReturn lk).locks th = [sleepLock lk] := by
  cases lk <;> rfl

section

variable (hI : Inv s)
include hI

section

variable (hrun : (s.cpu c).run = .thread th st)
include hrun

theorem Inv.myproc (hth : th ≠ none) :
    ∃ p, th = some p ∧ (s.cpu c).proc = some p ∧ (s.proc p).state = stateOf st := by
  obtain ⟨p, rfl⟩ := Option.ne_none_iff_exists'.mp hth
  have hok := hI.run c
  rw [hrun] at hok
  exact ⟨p, rfl, hok.proc, hok.state⟩

theorem Inv.legal : Legal th st := by
  have hok := hI.run c
  rw [hrun] at hok
  cases th with
  | none => exact hok.legal
  | some p => exact hok.legal

theorem Inv.holds (hl : l ∈ locks th st) : s.holder l = some c := by
  have hh := hI.held c
  rw [hrun] at hh
  exact (hh.holder l).mpr hl

end

/-! ## The code fits -/

theorem fits_scheduler {k : SchedulerPc} (hrun : (s.cpu c).run = .thread th (.scheduler k :: st)) :
    Fits s c th (.scheduler k :: st) (scheduler s st k) := by
  obtain ⟨rfl, rfl⟩ : th = none ∧ st = [] := by
    cases hI.legal hrun with
    | scheduler k h => exact ⟨h, rfl⟩
    | call f h hf => cases hf
  have hgo : ∀ {k'}, procOf [(.scheduler k' : Frame L)] = procOf [.scheduler k] →
      chosen [(.scheduler k' : Frame L)] = chosen [.scheduler k] →
      left [(.scheduler k' : Frame L)] = left [.scheduler k] →
      Goes none [(.scheduler k : Frame L)] [.scheduler k'] := fun h1 h2 h3 =>
    ⟨.scheduler _ rfl, rfl, h1, h2, h3, by simp [Frame.child]⟩
  cases k with
  | loop => exact .setIntr (hgo rfl rfl rfl) rfl rfl
  | acquire i =>
    rw [scheduler]
    split
    · exact .acquire (hgo rfl rfl rfl) (by simp [Frame.locks]) (.refl _)
    · exact .goto (hgo rfl rfl rfl) (.refl _)
  | test i =>
    rw [scheduler]
    split
    · exact .choose rfl rfl (by assumption) rfl
    · exact .goto (hgo rfl rfl rfl) (.refl _)
  | setProc i => exact .setProc rfl rfl
  | swtch i => exact .load rfl rfl
  | back i => exact .back rfl rfl
  | release i => exact .release (hgo rfl rfl rfl) (.refl _)

theorem Touch.wake (hrun : (s.cpu c).run = .thread th st) (hq : Quiet st)
    (hl : Lock.proc q ∈ locks th st) (hs : (s.proc q).state = .SLEEPING) :
    th ≠ some q ∧ Touch s c st st' q .RUNNABLE := by
  refine ⟨?_, hI.holds hrun hl, by rw [hs]; nofun, nofun, fun _ => .inl (.inr hs),
    fun h => absurd (.inl rfl) h, fun h => ?_, by rw [hq.left]; nofun⟩
  · rintro rfl
    obtain ⟨p, hp, -, hst⟩ := hI.myproc hrun nofun
    cases hp
    rw [hs, hq.state] at hst
    cases hst
  · rw [hs] at h
    cases h

theorem fits_wakeup {ch : Option Chan} {k : WakeupPc}
    (hrun : (s.cpu c).run = .thread th (.wakeup ch k :: st)) :
    Fits s c th (.wakeup ch k :: st) (wakeup s c ch st k) := by
  obtain ⟨hst, hl⟩ : Legal th st ∧ ∀ p, Lock.proc p ∉ locks th st := by
    cases hI.legal hrun with
    | call f h hf => cases hf
    | wakeup ch k hst hl => exact ⟨hst, hl⟩
  have hgo : ∀ {k'}, Goes th (.wakeup ch k :: st) (.wakeup ch k' :: st) := fun {k'} =>
    goes (.wakeup ch k' hst hl) rfl
  cases k with
  | acquire i =>
    rw [wakeup]
    split
    case isTrue h =>
      split
      · exact .goto hgo (.refl _)
      · exact .acquire hgo (hl _) (.refl _)
    case isFalse h =>
      exact .goto ((hst.quiet hl).pop hst ⟨rfl, rfl, rfl, rfl⟩) (.refl _)
  | test i =>
    refine .set hgo (.refl _) ?_
    obtain e | ⟨e, e'⟩ := ProcTable.wakeup1_state ch (s.proc i)
    · exact .inl e
    · rw [e']
      exact .inr (Touch.wake hI hrun ⟨rfl, rfl, rfl, rfl⟩ (by simp [Frame.locks]) e)
  | release i => exact .release hgo (.refl _)

theorem fits_yield {k : YieldPc} (hrun : (s.cpu c).run = .thread th (.yield k :: st)) :
    Fits s c th (.yield k :: st) (withProc s c fun p => yield s p st k) := by
  obtain ⟨hth, hst, hl⟩ : th ≠ none ∧ Legal th st ∧ locks th st = [] := by
    cases hI.legal hrun with
    | call f h hf => cases hf
    | yield k h hst hl => exact ⟨h, hst, hl⟩
  obtain ⟨p, rfl, hp, -⟩ := hI.myproc hrun hth
  have hleg : ∀ k', Legal (some p) (.yield k' :: st) := fun k' => .yield k' hth hst hl
  have hgo : ∀ {k'}, Goes (some p) (.yield k :: st) (.yield k' :: st) := fun {k'} =>
    goes (hleg k') rfl
  simp only [withProc, hp]
  cases k with
  | acquire => exact .acquire hgo (by simp [Frame.locks, hl]) (.refl _)
  | set =>
    refine .setOwn rfl (.sched _ hth (hleg _) rfl) rfl ?_ (.refl _)
    simp [Frame.child]
  | release =>
    exact .release ((hst.quiet_of_nil hl).pop hst ⟨rfl, rfl, rfl, rfl⟩) (.refl _)

theorem fits_sleep {chan : Chan} {lk : Option L} {k : SleepPc}
    (hrun : (s.cpu c).run = .thread th (.sleep chan lk k :: st)) :
    Fits s c th (.sleep chan lk k :: st) (withProc s c fun p => sleep s p chan lk st k) := by
  obtain ⟨hth, hleg, hret, hl⟩ : th ≠ none ∧ (∀ k', Legal th (.sleep chan lk k' :: st)) ∧
      Legal th (sleepReturn lk :: st) ∧ locks th st = [] := by
    cases hI.legal hrun with
    | sleep ch l k h => exact ⟨h, fun k' => .sleep _ _ _ h, .code _ h, rfl⟩
    | call f h hf =>
      cases lk with
      | none => exact ⟨h, fun k' => .call _ h rfl, .call _ h rfl, rfl⟩
      | some l => cases hf
  obtain ⟨p, rfl, hp, -⟩ := hI.myproc hrun hth
  have hgo : ∀ {k'}, Goes (some p) (.sleep chan lk k :: st) (.sleep chan lk k' :: st) := fun {k'} =>
    goes (hleg k') rfl
  simp only [withProc, hp]
  cases k with
  | acquire =>
    refine .acquire hgo ?_ ?_
    · simp [Frame.locks, hl, (sleepLock_ne lk).symm]
    · simp [Frame.locks, hl]
  | drop =>
    refine .release hgo ?_
    simp only [locks_cons, Frame.locks, hl, own_some, List.append_nil]
    exact .swap _ _ _
  | set =>
    refine .setOwn rfl (.sched _ hth (hleg _) rfl) rfl ?_ (.refl _)
    simp [Frame.child]
  | tidy => exact .set hgo (.refl _) (.inl rfl)
  | release => exact .release hgo (.refl _)
  | reacquire =>
    refine .acquire (Quiet.goes ⟨rfl, rfl, rfl, rfl⟩ ?_ hret ?_) ?_ ?_
    · cases lk <;> exact ⟨rfl, rfl, rfl, rfl⟩
    · cases lk <;> simp [sleepReturn, Frame.child]
    · simp [Frame.locks, hl]
    · rw [locks_cons, locks_cons, locks_sleepReturn]
      exact .refl _

theorem Inv.call (hrun : (s.cpu c).run = .thread th (f :: st))
    (hf : f.isCall = true) (hs : ∀ ch lk k, f ≠ .sleep ch lk k) : th ≠ none ∧ st = [.code []] := by
  cases hI.legal hrun with
  | call f h hf => exact ⟨h, rfl⟩
  | sleep ch l k h => exact absurd rfl (hs ch _ k)
  | _ => cases hf

theorem fits_kill {pid : ℤ} {k : KillPc}
    (hrun : (s.cpu c).run = .thread th (.kill pid k :: st)) :
    Fits s c th (.kill pid k :: st) (kill s pid st k) := by
  obtain ⟨hth, rfl⟩ := hI.call hrun rfl nofun
  have hgo : ∀ {k'}, Goes th [(.kill pid k : Frame L), .code []] [.kill pid k', .code []] := fun {k'} =>
    goes (.call _ hth rfl) rfl
  have hret : Goes th [(.kill pid k : Frame L), .code []] [.code []] :=
    goes (.code _ hth) rfl
  cases k with
  | acquire i =>
    rw [kill]
    split
    · exact .acquire hgo (by simp [Frame.locks]) (.refl _)
    · exact .goto hret (.refl _)
  | test i =>
    rw [kill]
    split
    · refine .set hgo (.refl _) ?_
      obtain e | ⟨e, e'⟩ := ProcTable.kill1_state (s.proc i)
      · exact .inl e
      · rw [e']
        exact .inr (Touch.wake hI hrun ⟨rfl, rfl, rfl, rfl⟩ (by simp [Frame.locks]) e)
    · exact .goto hgo (.refl _)
  | release i => exact .release hgo (.refl _)
  | found i => exact .release hret (.refl _)

variable {ch : Choice L}

theorem fits_fork {k : ForkPc} (hrun : (s.cpu c).run = .thread th (.fork k :: st)) :
    Fits s c th (.fork k :: st) (withProc s c fun p => fork s p ch st k) := by
  obtain ⟨hth, rfl⟩ := hI.call hrun rfl (by simp)
  obtain ⟨p, rfl, hp, hown⟩ := hI.myproc hrun hth
  have hrunning : (s.proc p).state = .RUNNING := hown
  have hleg : ∀ k', Legal (some p) [(.fork k' : Frame L), .code []] := fun k' => .call _ hth rfl
  have hgo : ∀ {k'}, ((.fork k' : Frame L).child = none ∨
      (.fork k' : Frame L).child = (.fork k : Frame L).child) →
      Goes (some p) [(.fork k : Frame L), .code []] [.fork k', .code []] := by
    intro k' hk
    refine Quiet.goes ⟨rfl, rfl, rfl, rfl⟩ ⟨rfl, rfl, rfl, rfl⟩ (hleg k') fun np hf => ?_
    rw [forks_cons] at hf ⊢
    obtain hf | hf := hf
    · obtain e | e := hk
      · rw [e] at hf
        cases hf
      · exact .inl (e ▸ hf)
    · exact .inr hf
  have hret : Goes (some p) [(.fork k : Frame L), .code []] [.code []] :=
    Quiet.pop ⟨rfl, rfl, rfl, rfl⟩ (.code _ hth) ⟨rfl, rfl, rfl, rfl⟩
  -- The slot that this `fork` has allocated.
  have hused : ∀ i, (.fork k : Frame L).child = some i →
      (s.proc i).state = .USED ∧ s.context i = [.forkret] := fun i hi =>
    hI.used p i (.inl ⟨c, _, hrun, by simp [hi]⟩)
  have hne : ∀ i, (.fork k : Frame L).child = some i → some p ≠ some i := by
    intro i hi e
    cases e
    rw [(hused _ hi).1] at hrunning
    cases hrunning
  simp only [withProc, hp]
  cases k with
  | acquire i =>
    rw [fork]
    split
    · exact .acquire (hgo (.inl rfl)) (by simp [Frame.locks]) (.refl _)
    · exact .goto hret (.refl _)
  | test i =>
    rw [fork]
    split
    · refine .allocproc rfl rfl (hleg _) rfl (by assumption) ?_
      simp [Frame.child, eq_comm]
    · exact .goto (hgo (.inl rfl)) (.refl _)
  | release i => exact .release (hgo (.inl rfl)) (.refl _)
  | alloc i =>
    obtain ⟨hu, -⟩ := hused i rfl
    have hdrop : Fits s c (some p) [.fork (.alloc i), .code []]
        (.goto [.fork (.drop i), .code []]) := .goto (hgo (.inr rfl)) (.refl _)
    cases ch
    case fail =>
      refine .set (hgo (.inl rfl)) (.refl _) (.inr ⟨hne i rfl, ?_, ?_, by rintro ⟨⟩, ?_, ?_,
      ?_, by rintro ⟨⟩⟩)
      · exact hI.holds hrun (by simp [Frame.locks])
      · rw [hu]
        simp
      · rintro (h | h) <;> cases h
      · rintro - (h | h) <;> rw [hu] at h <;> cases h
      · simp [Frame.child]
    all_goals exact hdrop
  | giveUp i | unlockRun i => exact .release hret (.refl _)
  | drop i | unlockParent i => exact .release (hgo (.inr rfl)) (.refl _)
  | lockParent i | lockRun i => exact .acquire (hgo (.inr rfl)) (by simp [Frame.locks]) (.refl _)
  | setParent i => exact .set (hgo (.inr rfl)) (.refl _) (.inl rfl)
  | setRun i =>
    obtain ⟨hu, hctx⟩ := hused i rfl
    refine .set (hgo (.inl rfl)) (.refl _) (.inr ⟨hne i rfl, ?_, ?_, by simp, ?_, ?_, ?_,
      by rintro ⟨⟩⟩)
    · exact hI.holds hrun (by simp [Frame.locks])
    · rw [hu]
      simp
    · exact fun _ => .inr hctx
    · exact fun h => absurd (.inl rfl) h
    · simp [Frame.child]

theorem fits_exit {status : ℤ} {k : ExitPc}
    (hrun : (s.cpu c).run = .thread th (.exit status k :: st)) :
    Fits s c th (.exit status k :: st) (withProc s c fun p => exit s p status st k) := by
  obtain ⟨hth, rfl, hk⟩ : th ≠ none ∧ st = [.code []] ∧ (.exit status k : Frame L).isCall = true := by
    cases hI.legal hrun with
    | call f h hf => exact ⟨h, rfl, hf⟩
  obtain ⟨p, rfl, hp, -⟩ := hI.myproc hrun hth
  have hleg : ∀ k', (.exit status k' : Frame L).isCall = true →
      Legal (some p) [(.exit status k' : Frame L), .code []] := fun k' hk' => .call _ hth hk'
  simp only [withProc, hp]
  cases k with
  | start | acquire =>
    refine .acquire (goes (hleg _ rfl) rfl) ?_ (.refl _)
    simp [Frame.locks]
  | reparent i =>
    have hwake : ∀ ch k', (.exit status k' : Frame L).isCall = true →
        (.exit status k' : Frame L).locks (some p) = [.wait] →
        Goes (some p) [(.exit status (.reparent i) : Frame L), .code []]
          [.wakeup ch (.acquire 0), .exit status k', .code []] := by
      intro ch k' hk' hl
      refine goes (.wakeup _ _ (hleg k' hk') fun q => ?_) rfl
      rw [locks_cons, hl]
      simp [Frame.locks]
    rw [exit]
    split
    · split
      · exact .set (hwake _ _ rfl rfl) (.refl _) (.inl rfl)
      · exact .goto (goes (hleg _ rfl) rfl) (.refl _)
    · exact .goto (hwake _ _ rfl rfl) (.refl _)
  | zombie =>
    refine .setOwn rfl (hleg _ rfl) rfl ?_ (.refl _)
    simp [Frame.child]
  | drop =>
    refine .release ⟨.exit _ _ hth rfl, rfl, rfl, rfl, rfl, ?_⟩ (.swap _ _ _)
    simp [Frame.child]
  | dead => cases hk

omit hI in
theorem wait_test (i : Slot) : wait s p ch st (.test i) = if (s.proc i).state = .ZOMBIE then
      match ch with
      | .fail => .goto (.wait (.found i) :: st)
      | _ => .set i freeproc (.wait (.found i) :: st)
    else .goto (.wait (.release i) :: st) := rfl

theorem fits_wait {k : WaitPc} (hrun : (s.cpu c).run = .thread th (.wait k :: st)) :
    Fits s c th (.wait k :: st) (withProc s c fun p => wait s p ch st k) := by
  obtain ⟨hth, rfl⟩ := hI.call hrun rfl (by simp)
  obtain ⟨p, rfl, hp, hown⟩ := hI.myproc hrun hth
  have hrunning : (s.proc p).state = .RUNNING := hown
  have hgo : ∀ {k'}, Goes (some p) [(.wait k : Frame L), .code []] [.wait k', .code []] := fun {k'} =>
    goes (.call _ hth rfl) rfl
  simp only [withProc, hp]
  cases k with
  | start => exact .acquire hgo (by simp [Frame.locks]) (.refl _)
  | scan i havekids =>
    rw [wait]
    split
    · split
      · exact .acquire hgo (by simp [Frame.locks]) (.refl _)
      · exact .goto hgo (.refl _)
    · split
      · exact .goto hgo (.refl _)
      · exact .goto (goes (.call _ hth rfl) rfl) (.refl _)
  | test i =>
    by_cases hz : (s.proc i).state = .ZOMBIE
    · have hfree : Fits s c (some p) [.wait (.test i), .code []]
          (.set i freeproc [.wait (.found i), .code []]) := by
        refine .set hgo (.refl _) (.inr ⟨?_, ?_, ?_, by rintro ⟨⟩, ?_, ?_, ?_, by rintro ⟨⟩⟩)
        · intro e
          cases e
          rw [hz] at hrunning
          cases hrunning
        · exact hI.holds hrun (by simp [Frame.locks])
        · rw [hz]
          simp
        · rintro (h | h) <;> cases h
        · rintro - (h | h) <;> rw [hz] at h <;> cases h
        · rw [hz]
          simp
      cases ch
      case fail =>
        rw [wait_test, if_pos hz]
        exact .goto hgo (.refl _)
      all_goals
        rw [wait_test, if_pos hz]
        exact hfree
    · rw [wait_test, if_neg hz]
      exact .goto hgo (.refl _)
  | release i | found i => exact .release hgo (.refl _)
  | done =>
    exact .release (goes (.code _ hth) rfl) (.refl _)

theorem fits_forkret (hrun : (s.cpu c).run = .thread th (.forkret :: st)) :
    Fits s c th (.forkret :: st)
      (withProc s c fun p => .release (.proc p) (.code [] :: st)) := by
  obtain ⟨hth, rfl⟩ : th ≠ none ∧ st = [] := by
    cases hI.legal hrun with
    | forkret h => exact ⟨h, rfl⟩
    | call f h hf => cases hf
  obtain ⟨p, rfl, hp, -⟩ := hI.myproc hrun hth
  simp only [withProc, hp]
  exact .release (goes (.code _ hth) rfl) (.refl _)

variable {held : List L} {i : Instr L}

omit hI in
theorem fits_locking [DecidableEq L] {mk : List L → Frame L}
    (hlegal : ∀ held', Legal th (mk held' :: st)) (hq : ∀ held', Quiet (mk held' :: st))
    (hchild : ∀ held', (mk held').child = none)
    (hlocks : ∀ held', (mk held').locks th = held'.map .other) (hl : locks th st = [])
    (hn : locking mk held st ch = some i) : Fits s c th (mk held :: st) i := by
  have hgo : ∀ held', Goes th (mk held :: st) (mk held' :: st) := fun held' =>
    (hq held).goes (hq held') (hlegal held') (by simp [hchild])
  have hlocks' : ∀ held', locks th (mk held' :: st) = held'.map .other := by
    intro held'
    rw [locks_cons, hlocks, hl, List.append_nil]
  cases ch with
  | acquire l =>
    obtain ⟨hm, hn⟩ := Option.ite_none_left_eq_some.mp hn
    cases hn
    refine .acquire (hgo _) ?_ ?_
    · rw [hlocks']
      simpa using hm
    · rw [hlocks', hlocks']
      exact .refl _
  | release l =>
    obtain ⟨hm, hn⟩ := Option.ite_none_right_eq_some.mp hn
    cases hn
    refine .release (hgo _) ?_
    rw [hlocks', hlocks']
    exact (List.perm_cons_erase hm).map _
  | wakeup ch =>
    cases hn
    refine .goto ((hq held).goes ⟨rfl, rfl, rfl, rfl⟩ (.wakeup _ _ (hlegal held) ?_) ?_) (.refl _)
    · rw [hlocks']
      simp
    · simp [Frame.child]
  | _ => cases hn

theorem fits_code [DecidableEq L]
    (hrun : (s.cpu c).run = .thread th (.code held :: st)) (hn : code s c held st ch = some i) :
    Fits s c th (.code held :: st) i := by
  obtain ⟨hth, rfl⟩ : th ≠ none ∧ st = [] := by
    cases hI.legal hrun with
    | code held h => exact ⟨h, rfl⟩
    | call f h hf => cases hf
  have hcode : ∀ held', Legal th [(.code held' : Frame L)] := fun held' => .code held' hth
  have hlocking : locking .code held [] ch = some i → Fits s c th [.code held] i :=
    fits_locking hcode (fun _ => ⟨rfl, rfl, rfl, rfl⟩) (fun _ => rfl) (fun _ => rfl) rfl
  -- A call by code that holds no lock.
  have hcall : ∀ {f : Frame L}, held = [] → Legal th [f, .code []] → Quiet [f, .code []] →
      f.child = none → f.locks th = [] → Fits s c th [.code held] (.goto [f, .code held]) := by
    rintro f rfl hleg hq hc hl
    refine .goto (Quiet.goes ⟨rfl, rfl, rfl, rfl⟩ hq hleg ?_) ?_
    · intro np hf
      rw [forks_cons, hc] at hf
      exact hf.resolve_left nofun
    · have hlocks : locks th [f, .code []] = locks th [.code []] := by rw [locks_cons, hl, List.nil_append]
      rw [hlocks]
  cases ch with
  | go | fail | ret | acquire | release | wakeup => exact hlocking hn
  | sleep chan l =>
    obtain ⟨rfl, hi⟩ := Option.ite_none_right_eq_some.mp hn
    cases hi
    exact .goto (goes (.sleep _ _ _ hth) rfl) (.refl _)
  | intrOn | intrOff =>
    obtain ⟨rfl, hi⟩ := Option.ite_none_right_eq_some.mp hn
    cases hi
    exact .setIntr (goes (hcode _) rfl) rfl rfl
  | yield =>
    obtain ⟨hh, hn⟩ := Option.ite_none_right_eq_some.mp hn
    cases hn
    exact hcall hh (.yield _ hth (hcode _) rfl) ⟨rfl, rfl, rfl, rfl⟩ rfl rfl
  | fork | wait | kill pid =>
    obtain ⟨hh, hn⟩ := Option.ite_none_right_eq_some.mp hn
    cases hn
    exact hcall hh (.call _ hth rfl) ⟨rfl, rfl, rfl, rfl⟩ rfl rfl
  | exit status =>
    obtain ⟨⟨hh, -⟩, hn⟩ := Option.ite_none_right_eq_some.mp hn
    cases hn
    exact hcall hh (.call _ hth rfl) ⟨rfl, rfl, rfl, rfl⟩ rfl rfl

theorem fits_trap [DecidableEq L]
    (hrun : (s.cpu c).run = .thread th (.trap held :: st)) (hn : trap s c held st ch = some i) :
    Fits s c th (.trap held :: st) i := by
  obtain ⟨hst, hl⟩ : Legal th st ∧ locks th st = [] := by
    cases hI.legal hrun with
    | call f h hf => cases hf
    | trap held hst hl => exact ⟨hst, hl⟩
  have htrap : ∀ held', Legal th (.trap held' :: st) := fun held' => .trap held' hst hl
  have hlocking : locking .trap held st ch = some i → Fits s c th (.trap held :: st) i :=
    fits_locking htrap (fun _ => ⟨rfl, rfl, rfl, rfl⟩) (fun _ => rfl) (fun _ => rfl) hl
  cases ch with
  | ret =>
    obtain ⟨rfl, hi⟩ := Option.ite_none_right_eq_some.mp hn
    cases hi
    refine .setIntr ((hst.quiet_of_nil hl).pop hst ⟨rfl, rfl, rfl, rfl⟩) ?_ hl
    simp [Frame.locks, hl]
  | yield =>
    obtain ⟨rfl, hi⟩ := Option.ite_none_right_eq_some.mp hn
    have hth : th ≠ none := by
      rintro rfl
      have hok := hI.run c
      rw [hrun] at hok
      rw [show (s.cpu c).proc = none from hok.proc] at hi
      cases hi
    obtain ⟨p, rfl, hp, -⟩ := hI.myproc hrun hth
    rw [hp] at hi
    obtain ⟨-, hi⟩ := Option.ite_none_right_eq_some.mp hi
    cases hi
    exact .goto (goes (.yield _ hth (htrap _) hl) rfl) (.refl _)
  | _ => exact hlocking hn

variable [DecidableEq C]

theorem Inv.interrupt (hrun : (s.cpu c).run = .thread th st)
    (hi : (s.cpu c).intr = true) :
    Inv (s.setCpu c { s.cpu c with intr := false, run := .thread th (.trap [] :: st) }) := by
  have hh := hI.held c
  rw [hrun] at hh
  have hl : locks th st = [] := hh.intr hi
  have hst := hI.legal hrun
  have hg : Goes th st (.trap [] :: st) :=
    (hst.quiet_of_nil hl).goes ⟨rfl, rfl, rfl, rfl⟩ (.trap _ hst hl) (by simp [Frame.child])
  have hok := hI.run c
  rw [hrun] at hok
  refine hI.thread hrun rfl ?_ (fun c' _ => hI.held c') (hg.runOk hok rfl rfl fun _ _ => rfl)
    hg.owner (fun _ _ => .inl rfl) hg.forks
  exact ⟨hh.holder, hh.nodup, hh.noff, by simp⟩

theorem fits_sched {k : SchedPc} (hrun : (s.cpu c).run = .thread th (.sched k :: st)) :
    Fits s c th (.sched k :: st) (withProc s c fun p => sched s c p st k) := by
  have hlegal := hI.legal hrun
  have hth : th ≠ none := by
    cases hlegal with
    | call f h hf => cases hf
    | sched k h hst hf => exact h
    | exit k status h hk => exact h
  obtain ⟨p, rfl, hp, hstate⟩ := hI.myproc hrun hth
  simp only [withProc, hp]
  have hcases := hlegal.sched_cases
  cases k with
  | check =>
    have hlocks : locks (some p) (.sched .check :: st) = [.proc p] := by
      obtain ⟨f, st', rfl, hst, hf⟩ | ⟨status, rfl, -⟩ := hcases
      · exact hst.locks_resumes hf
      · rfl
    have hheld := hI.held c
    rw [hrun] at hheld
    have hnoff : (s.cpu c).noff = 1 := by
      rw [hheld.noff]
      exact congrArg List.length hlocks
    have hintr : (s.cpu c).intr = false := by
      rw [Bool.eq_false_iff]
      intro hi
      exact List.cons_ne_nil _ _ (hlocks.symm.trans (hheld.intr hi))
    have hnext : Legal (some p) (.sched (.swtch (s.cpu c).intena) :: st) ∧
        stateOf (.sched .check :: st) ≠ .RUNNING ∧
        stateOf (.sched (.swtch (s.cpu c).intena) :: st) = stateOf (.sched .check :: st) := by
      obtain ⟨f, st', rfl, hst, hf⟩ | ⟨status, rfl, -⟩ := hcases
      · refine ⟨.sched _ hth hst hf, ?_⟩
        cases f with
        | yield k => exact ⟨nofun, rfl⟩
        | sleep ch lk k => exact ⟨nofun, rfl⟩
        | _ => cases hf
      · exact ⟨.exit _ _ hth rfl, nofun, rfl⟩
    have hlock : s.holder (.proc p) = some c := hI.holds hrun (hlocks ▸ List.mem_singleton_self _)
    have hrunning : (s.proc p).state ≠ .RUNNING := hstate ▸ hnext.2.1
    rw [sched, if_neg (not_not.mpr hlock), if_neg (not_not.mpr hnoff), if_neg hrunning, hintr,
      if_neg Bool.false_ne_true]
    refine .goto ⟨hnext.1, hnext.2.2, rfl, rfl, rfl, ?_⟩ (.refl _)
    simp [Frame.child]
  | swtch b => exact .leave rfl rfl
  | back b =>
    obtain ⟨f, st', rfl, hst, hf⟩ | ⟨status, rfl, hk⟩ := hcases
    · refine .setIntena (Quiet.pop ?_ hst ⟨rfl, rfl, rfl, rfl⟩) (.refl _)
      cases f with
      | yield k | sleep ch lk k => exact ⟨rfl, rfl, rfl, rfl⟩
      | _ => cases hf
    · cases hk

variable [DecidableEq L]

theorem Inv.perform (hrun : (s.cpu c).run = .thread th st)
    (hf : Fits s c th st i) (hs : perform s c th i = some s') : Inv s' := by
  have hok := hI.run c
  have hh := hI.held c
  rw [hrun] at hok hh
  have hheld : Held s.holder c (locks th st) (s.cpu c) := hh
  have hothers : ∀ c', c' ≠ c → Held s.holder c' (s.cpu c').run.locks (s.cpu c') :=
    fun c' _ => hI.held c'
  cases hf with
  | goto hg hl | setIntena hg hl =>
    cases hs
    exact hI.thread hrun rfl ((hheld.perm hl).congr rfl rfl) hothers
      (hg.runOk hok rfl rfl fun _ _ => rfl) hg.owner (fun _ _ => .inl rfl) hg.forks
  | setIntr hg h h' =>
    cases hs
    refine hI.thread hrun rfl ?_ hothers
      (hg.runOk hok rfl rfl fun _ _ => rfl) hg.owner (fun _ _ => .inl rfl) hg.forks
    rw [h] at hheld
    rw [h']
    exact ⟨hheld.holder, hheld.nodup, hheld.noff, fun _ => rfl⟩
  | @acquire l st' hg hn hl =>
    rw [Sched.perform, if_neg (fun h => hn ((hheld.holder l).mp h))] at hs
    obtain ⟨hfree, hs⟩ := Option.ite_none_right_eq_some.mp hs
    cases hs
    exact hI.thread hrun rfl (((hheld.acquire hfree).perm hl).congr rfl rfl)
      (fun c' e => (hothers c' e).acquire_other hfree e)
      (hg.runOk hok rfl rfl fun _ _ => rfl) hg.owner (fun _ _ => .inl rfl) hg.forks
  | @release l st' hg hl =>
    have hlc : s.holder l = some c := (hheld.holder l).mpr (hl.mem_iff.mpr List.mem_cons_self)
    obtain ⟨y, hpop, -, hp, hcx, hy⟩ := (hheld.perm hl).release
    simp only [Sched.perform, if_pos hlc, hpop] at hs
    cases hs
    exact hI.thread hrun rfl (hy.congr rfl rfl)
      (fun c' e => (hothers c' e).release_other hlc e)
      (hg.runOk hok hp hcx fun _ _ => rfl) hg.owner (fun _ _ => .inl rfl) hg.forks
  | @setProc q hth hst =>
    subst hth hst
    cases hs
    have hok' : RunOk s.proc s.context { s.cpu c with proc := some q }
        (.thread none [.scheduler (.swtch q)]) := ⟨.scheduler _ rfl, rfl, hok.chosen, nofun⟩
    refine hI.thread hrun rfl ?_ hothers ⟨hok'.legal, hok'.proc, hok'.chosen, nofun⟩ ?_
      (fun _ _ => .inl rfl) (by simp [Frame.child])
    · exact hheld.congr rfl rfl
    · rfl
  | back hth hst =>
    subst hth hst
    cases hs
    exact hI.back hrun
  | @set q x st' hg hl hx =>
    cases hs
    have hself : update s.proc q x q = x := update_self _ _ _
    have hother : ∀ q', q' ≠ q → update s.proc q x q' = s.proc q' := fun q' e =>
      update_of_ne e _ _
    refine hI.thread hrun rfl ((hheld.perm hl).congr rfl rfl) hothers
      (hg.runOk hok rfl rfl fun p ho => ?_) hg.owner (fun q' hq' => ?_) hg.forks
    · by_cases e : p = q
      · subst e
        rw [hself]
        obtain hx | ⟨hne, ht⟩ := hx
        · exact hx
        · cases th with
          | none =>
            obtain ho | ⟨-, ho⟩ := Option.or_eq_some_iff.mp ho
            · exact absurd (hok.chosen p ho).state ht.old
            · exact absurd ho ht.left
          | some p' => exact absurd ho hne
      · rw [hother p e]
    · by_cases e : q' = q
      · subst e
        rw [hself]
        exact hx.imp_right And.right
      · rw [hother q' e]
        exact .inl rfl
  | @setOwn p x st' hth hlegal hx hforks hl =>
    subst hth
    cases hs
    have hself : update s.proc p x p = x := update_self _ _ _
    refine hI.thread hrun rfl ((hheld.perm hl).congr rfl rfl) hothers
      ⟨⟨hok.proc, hok.context⟩, hlegal, ?_⟩ rfl (fun q hq => .inl ?_) hforks
    · rw [hself, hx]
    · rw [update_of_ne fun e => hq (congrArg some e).symm]
  | choose hth hst hr hx =>
    subst hth hst
    cases hs
    exact hI.choose hrun hr rfl hx
  | allocproc hth hl hlegal hst hu hforks =>
    subst hth
    cases hs
    exact hI.allocproc hrun rfl hl hlegal hst hu rfl hforks
  | load hth hst =>
    subst hth hst
    cases hs
    exact hI.load hrun
  | leave hth hst =>
    subst hth hst
    cases hs
    exact hI.leave hrun

theorem fits_next
    (hrun : (s.cpu c).run = .thread th (f :: st)) (hn : next s c ch st f = some i) :
    Fits s c th (f :: st) i := by
  cases f with
  | code held => exact fits_code hI hrun hn
  | trap held => exact fits_trap hI hrun hn
  | scheduler k => cases hn; exact fits_scheduler hI hrun
  | forkret => cases hn; exact fits_forkret hI hrun
  | wakeup chan k => cases hn; exact fits_wakeup hI hrun
  | yield k => cases hn; exact fits_yield hI hrun
  | sleep chan lk k => cases hn; exact fits_sleep hI hrun
  | sched k => cases hn; exact fits_sched hI hrun
  | kill pid k => cases hn; exact fits_kill hI hrun
  | fork k => cases hn; exact fits_fork hI hrun
  | exit status k => cases hn; exact fits_exit hI hrun
  | wait k => cases hn; exact fits_wait hI hrun

theorem Inv.step {a : Act C L} (hs : step s a = some s') : Inv s' := by
  have hp : ¬ s.panic.isSome = true := by
    rw [hI.panic]
    exact Bool.false_ne_true
  cases a with
  | run c ch =>
    rw [Sched.step, if_neg hp] at hs
    cases hrun : (s.cpu c).run with
    | thread th st =>
      cases st with
      | nil =>
        simp only [hrun] at hs
        cases hs
      | cons f st =>
        simp only [hrun] at hs
        obtain ⟨i, hn, hi⟩ := Option.bind_eq_some_iff.mp hs
        exact hI.perform hrun (fits_next hI hrun hn) hi
    | loading p =>
      simp only [hrun] at hs
      cases hs
      exact hI.loaded hrun
    | leaving p =>
      simp only [hrun] at hs
      cases hs
      exact hI.left hrun
  | interrupt c =>
    rw [Sched.step, if_neg hp] at hs
    cases hrun : (s.cpu c).run with
    | thread th st =>
      simp only [hrun] at hs
      obtain ⟨hi, hs⟩ := Option.ite_none_right_eq_some.mp hs
      cases hs
      exact hI.interrupt hrun hi
    | _ =>
      simp only [hrun] at hs
      cases hs

end

end TatakOS.Sched
