import TatakOS.Proc.Monitor

/-!
# Sleepers that were killed

`kill` sets `p->killed` under `p->lock` and makes a sleeping victim `RUNNABLE`. Code that waits looks
at `p->killed` before it calls `sleep`, but it holds another lock there. A killed process sleeps only
if the `kill` came between its test and its sleep.
-/

namespace TatakOS.Monitor

variable {n : ℕ} {K C D L A : Type} {M : Client n K C D L A} {s s' : State n K C D L} {t : Fin n}

/-- The code looks at `p->killed` before it sleeps; `clear l` says that at `l` it has, and found
0. -/
structure Watchful (M : Client n K C D L A) (clear : L → Prop) : Prop where
  entry : ∀ t d l, M.entry t d l = true → ¬ clear l
  go : ∀ a t l d k l' d', M.next a t l d k = .go l' d' → clear l' → k = false ∨ clear l
  sleep : ∀ a t l d k ch l', M.next a t l d k = .sleep ch l' → ¬ clear l' ∧ (k = false ∨ clear l)
  wakeup : ∀ a t l d k ch l', M.next a t l d k = .wakeup ch l' → clear l' → k = false ∨ clear l

/-- From the test of `p->killed` until the process is `SLEEPING`. -/
def Pc.Window (clear : L → Prop) : Pc C L → Prop
  | .run l | .wake _ _ l => clear l
  | .sleepLock _ _ | .sleepRelease _ _ | .sleepSet _ _ => True
  | _ => False

/-- No `kill` hits a process between its test of `p->killed` and its sleep. -/
def KillsOutside (clear : L → Prop) (s : State n K C D L) : Act n L A → Prop
  | .kill t => ¬ (s.th t).pc.Window clear
  | _ => True

/-- No process that was killed sleeps, or is about to. -/
structure AwakeInv (clear : L → Prop) (s : State n K C D L) : Prop where
  later : ∀ t l, (s.th t).pc.later = some l → ¬ clear l
  window : ∀ t, (s.th t).killed = true → ¬ (s.th t).pc.Window clear
  sleeping : ∀ t, (s.th t).killed = true → (s.th t).state ≠ .SLEEPING

variable {clear : L → Prop}

theorem awake_init (clear : L → Prop) (d : D) : AwakeInv clear (init d : State n K C D L) := by
  constructor <;> simp [init, Pc.later]

theorem AwakeInv.set (hi : AwakeInv clear s) {y : Thread C L} {lk : K → Option (Fin n)} {d : D}
    {owed : C → Bool} (hlater : ∀ l, y.pc.later = some l → ¬ clear l)
    (hwin : y.killed = true → ¬ y.pc.Window clear)
    (hsleep : y.killed = true → y.state ≠ .SLEEPING) :
    AwakeInv clear { s.setTh t y with lk := lk, data := d, owed := owed } := by
  constructor <;> intro u <;>
    rcases th_update s.th t y u with e | e <;> simp only [State.setTh, e]
  exacts [hlater, hi.later u, hwin, hi.window u, hsleep, hi.sleeping u]

section Awake

variable [DecidableEq K] [DecidableEq C]

theorem awake_exec (hM : Watchful M clear) {a : A} (hi : AwakeInv clear s)
    (hrun : (s.th t).state = .RUNNING) (h : exec M s t a = some s') : AwakeInv clear s' := by
  have hstate : (s.th t).killed = true → (s.th t).state ≠ .SLEEPING := fun _ => by
    rw [hrun]
    simp
  cases hpc : (s.th t).pc with simp only [exec, hpc] at h
  | idle | asleep ch l => cases h
  | acquire l =>
    split_ifs at h
    cases h
    exact hi.set (by rintro _ ⟨⟩) (fun _ => hi.later t l (by rw [hpc]; rfl)) hstate
  | run l =>
    -- a place that is clear comes from one that is, or from the test of `p->killed`
    have hback : ∀ {P : Prop}, (P → (s.th t).killed = false ∨ clear l) →
        (s.th t).killed = true → ¬ P := by
      intro P hP hk p
      rcases hP p with h0 | h0
      · rw [hk] at h0
        cases h0
      · exact hi.window t hk (by rw [hpc]; exact h0)
    cases hnext : M.next a t l s.data (s.th t).killed with simp only [hnext] at h
    | go l' d =>
      cases h
      exact hi.set (by rintro _ ⟨⟩) (hback (hM.go a t l _ _ l' d hnext)) hstate
    | sleep ch l' =>
      cases h
      obtain ⟨hl', hk⟩ := hM.sleep a t l _ _ ch l' hnext
      refine hi.set ?_ (hback fun _ => hk) hstate
      rintro l2 h2
      cases h2
      exact hl'
    | wakeup ch l' =>
      cases h
      exact hi.set (by rintro _ ⟨⟩) (hback (hM.wakeup a t l _ _ ch l' hnext)) hstate
    | ret =>
      cases h
      exact hi.set (by rintro _ ⟨⟩) (fun _ => id) hstate
  | wake ch j l =>
    have hwin := hi.window t
    rw [hpc] at hwin
    split_ifs at h with hj hself hl
    · cases h
      exact hi.set (by rintro _ ⟨⟩) hwin hstate
    · cases h
      have hi' : AwakeInv clear (s.setTh ⟨j, hj⟩ (wakeup1 ch (s.th ⟨j, hj⟩))) := by
        have hw : (wakeup1 ch (s.th ⟨j, hj⟩)).pc = (s.th ⟨j, hj⟩).pc ∧
            (wakeup1 ch (s.th ⟨j, hj⟩)).killed = (s.th ⟨j, hj⟩).killed ∧
            ((wakeup1 ch (s.th ⟨j, hj⟩)).state = .SLEEPING → (s.th ⟨j, hj⟩).state = .SLEEPING) := by
          unfold wakeup1
          split_ifs
          · exact ⟨rfl, rfl, by simp⟩
          · exact ⟨rfl, rfl, id⟩
        refine hi.set ?_ ?_ ?_
        · rw [hw.1]
          exact hi.later _
        · rw [hw.1, hw.2.1]
          exact hi.window _
        · rw [hw.2.1]
          exact fun hk hs => hi.sleeping _ hk (hw.2.2 hs)
      exact hi'.set (by rintro _ ⟨⟩) hwin hstate
    · cases h
      exact hi.set (by rintro _ ⟨⟩) hwin hstate
  | sleepLock ch l | sleepRelease ch l =>
    cases h
    have hwin := hi.window t
    rw [hpc] at hwin
    exact hi.set (fun l' h' => hi.later t l' (by rw [hpc]; exact h')) hwin hstate
  | sleepSet ch l =>
    cases h
    have hwin := hi.window t
    rw [hpc] at hwin
    refine hi.set (fun l' h' => hi.later t l' (by rw [hpc]; exact h')) (fun _ => id) fun hk => ?_
    exact absurd trivial (hwin hk)

theorem awake_step (hM : Watchful M clear) {a : Act n L A} (hi : AwakeInv clear s)
    (hkill : KillsOutside clear s a) (h : step M s a = some s') : AwakeInv clear s' := by
  cases a with simp only [step] at h
  | call t l =>
    split at h
    · split_ifs at h with hc
      cases h
      refine hi.set ?_ (fun _ => id) (hi.sleeping t)
      rintro l' h'
      cases h'
      exact hM.entry t s.data l hc.2
    · cases h
  | exec t a =>
    split_ifs at h with hrun
    exact awake_exec hM hi hrun h
  | schedule t =>
    split_ifs at h with hc
    cases h
    have hlater := hi.later t
    have hwin := hi.window t
    cases hk : (s.th t).pc with
    | asleep ch l =>
      rw [hk] at hlater
      exact hi.set hlater (fun _ => id) fun _ => (by simp)
    | _ =>
      rw [hk] at hlater hwin
      exact hi.set hlater hwin fun _ => (by simp)
  | yield t =>
    split_ifs at h with hc
    cases h
    exact hi.set (hi.later t) (hi.window t) fun _ => (by simp)
  | kill t =>
    split_ifs at h with hl hs
    · cases h
      exact hi.set (hi.later t) (fun _ => hkill) fun _ => (by simp)
    · cases h
      exact hi.set (hi.later t) (fun _ => hkill) fun _ => hs
  | renew t =>
    split at h
    · cases h
      exact hi.set (hi.later t) (by simp) (by simp)
    · cases h

end Awake

end TatakOS.Monitor
