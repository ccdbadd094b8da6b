import TatakOS.Proc.Sleep

/-!
# Sleep-locks

`acquiresleep` is a waiter for `!lk->locked` and `releasesleep` is a waker, so a sleep-lock is a
client of `sleep` and `wakeup`. Only the process that holds the lock calls `releasesleep`: its
callers test `holdingsleep` first. At most one process holds the lock (`LockInv.unique`).
-/

namespace TatakOS.Sleep

open Function

variable {n : ℕ}

/-- `struct sleeplock`. `holds p` is the pid of process `p` if it has returned from `acquiresleep`
and not yet called `releasesleep`. -/
structure SleepLock (n : ℕ) where
  locked : Bool := false
  pid : ℤ := 0
  holds : Fin n → Option ℤ := fun _ => none

/-- `acquiresleep` after its loop; `pid` is `myproc()->pid`. -/
def acquiresleep (pid : ℤ) (p : Fin n) (d : SleepLock n) : SleepLock n :=
  { locked := true, pid := pid, holds := update d.holds p (some pid) }

/-- `releasesleep` before its `wakeup`. -/
def releasesleep (p : Fin n) (d : SleepLock n) : SleepLock n :=
  { locked := false, pid := 0, holds := update d.holds p none }

def holdingsleep (pid : ℤ) (d : SleepLock n) : Bool := d.locked && d.pid = pid

/-- The sleep-lock as a client. No interrupt handler on an idle CPU calls `releasesleep`. -/
def sleepLock (n : ℕ) : Client n Empty (SleepLock n) ℤ where
  cond d := !d.locked
  take pid p d := acquiresleep pid p d
  give
    | _, .inl p, d => releasesleep p d
  give_cond
    | _, .inl _, _ => rfl
  mayGive
    | .inl p, d => (d.holds p).isSome

section Lock

variable {s t : State n Empty (SleepLock n)} {p : Fin n}

structure LockInv (s : State n Empty (SleepLock n)) : Prop where
  /-- `holdingsleep` is true of the process that holds the lock. -/
  held : ∀ p pid, s.data.holds p = some pid → holdingsleep pid s.data = true
  unique : ∀ p q, s.data.holds p ≠ none → s.data.holds q ≠ none → p = q
  /-- A process in `releasesleep` that has not cleared `lk->locked` holds the lock. -/
  giving : ∀ p, s.wake (.inl p) = .acquire ∨ s.wake (.inl p) = .give → s.data.holds p ≠ none

theorem lockInv_init : LockInv (init {} : State n Empty (SleepLock n)) := by
  constructor <;> simp [init]

theorem LockInv.frame (hl : LockInv s) (hd : t.data = s.data)
    (hg : ∀ p, t.wake (.inl p) = .acquire ∨ t.wake (.inl p) = .give → s.data.holds p ≠ none) :
    LockInv t := by
  refine ⟨?_, ?_, ?_⟩
  · rw [hd]; exact hl.held
  · rw [hd]; exact hl.unique
  · rw [hd]; exact hg

/-- Nobody holds the lock where a waiter has left its loop. -/
theorem LockInv.not_holds_of_take (hl : LockInv s) (hi : Inv (sleepLock n) s)
    (hk : (s.th p).pc = .take) (q : Fin n) : s.data.holds q = none := by
  have hc : s.data.locked = false := by simpa [sleepLock] using hi.taking p hk
  by_contra h
  obtain ⟨pid, hq⟩ := Option.ne_none_iff_exists'.mp h
  have := hl.held q pid hq
  simp [holdingsleep, hc] at this

theorem LockInv.take (hl : LockInv s) (hi : Inv (sleepLock n) s) {pid : ℤ}
    (hk : (s.th p).pc = .take) (hd : t.data = acquiresleep pid p s.data)
    (hw : t.wake = s.wake) : LockInv t := by
  have hnone := hl.not_holds_of_take hi hk
  have hholds : ∀ q, t.data.holds q ≠ none → q = p := by
    intro q hq
    by_contra e
    simp [hd, acquiresleep, e, hnone] at hq
  refine ⟨?_, ?_, ?_⟩
  · intro q pid' hq
    obtain rfl := hholds q (by simp [hq])
    obtain rfl : pid = pid' := by simpa [hd, acquiresleep] using hq
    simp [hd, acquiresleep, holdingsleep]
  · intro q r hq hr
    rw [hholds q hq, hholds r hr]
  · intro q hq
    rw [hw] at hq
    exact absurd (hnone q) (hl.giving q hq)

theorem LockInv.give (hl : LockInv s) (hc : s.wake (.inl p) = .give)
    (hd : t.data = releasesleep p s.data)
    (hw : t.wake = update s.wake (.inl p) (.scan 0)) : LockInv t := by
  have hp := hl.giving p (.inr hc)
  have hnone : ∀ q, t.data.holds q = none := by
    intro q
    rcases eq_or_ne q p with rfl | e
    · simp [hd, releasesleep]
    · have : ¬ s.data.holds q ≠ none := fun hq => e (hl.unique q p hq hp)
      simpa [hd, releasesleep, e] using this
  refine ⟨?_, ?_, ?_⟩
  · intro q pid hq; simp [hnone] at hq
  · intro q r hq; simp [hnone] at hq
  · intro q hq
    rcases eq_or_ne q p with rfl | e
    · simp [hw] at hq
    · exact absurd (hl.unique q p (hl.giving q (by simpa [hw, e] using hq)) hp) e

theorem lockInv_step {a : Act n Empty ℤ} (hi : Inv (sleepLock n) s) (hl : LockInv s)
    (h : step (sleepLock n) s a = some t) : LockInv t := by
  cases step_dataMove h with
  | same hd hw => exact hl.frame hd (by rw [hw]; exact hl.giving)
  | take p pid hk hd hw => exact hl.take hi hk hd hw
  | start c hm hd hw =>
    refine hl.frame hd fun q hq => ?_
    by_cases e : c = .inl q
    · subst e
      simpa [sleepLock, Option.isSome_iff_ne_none] using hm
    · exact hl.giving q (by simpa [hw, Ne.symm e] using hq)
  | acquired c hc hd hw =>
    refine hl.frame hd fun q hq => hl.giving q ?_
    by_cases e : c = .inl q
    · subst e; exact .inl hc
    · simpa [hw, Ne.symm e] using hq
  | give c _ hc hd hw =>
    obtain p | i := c
    · exact hl.give hc hd hw
    · exact i.elim
  | given c w hc hd hw =>
    refine hl.frame hd fun q hq => ?_
    by_cases e : c = .inl q
    · subst e; simp [hw, hc] at hq
    · exact hl.giving q (by simpa [hw, Ne.symm e] using hq)

theorem lockInv_reachable {as : List (Act n Empty ℤ)}
    (h : run (step (sleepLock n)) (init {}) as = some s) : LockInv s := by
  have := run_induct (I := fun s => Inv (sleepLock n) s ∧ LockInv s)
    (fun _ _ _ hs ht => ⟨inv_step hs.1 ht, lockInv_step hs.1 hs.2 ht⟩)
    ⟨inv_init _ _, lockInv_init⟩ h
  exact this.2

end Lock

/-- No wakeup is lost, for every client of `sleep` and `wakeup`; and for the sleep-lock: at most
one process holds it, and nobody sleeps on it while it is free. -/
theorem no_lost_wakeup : (∀ (n : ℕ) (ι D A : Type) [DecidableEq ι] (C : Client n ι D A) (d : D)
      (as : List (Act n ι A)) (s : State n ι D), run (step C) (init d) as = some s →
      s.lk = none → ∀ p, (s.th p).state = .SLEEPING → (s.th p).chan = some .here →
        C.cond s.data = false) ∧
    (∀ (n : ℕ) (as : List (Act n Empty ℤ)) (s : State n Empty (SleepLock n)),
      run (step (sleepLock n)) (init {}) as = some s →
      (∀ p q, s.data.holds p ≠ none → s.data.holds q ≠ none → p = q) ∧
      (s.lk = none → s.data.locked = false →
        ∀ p, ¬ ((s.th p).state = .SLEEPING ∧ (s.th p).chan = some .here))) := by
  refine ⟨?_, ?_⟩
  · intro n ι D A _ C d as s h hlk p hs hch
    exact (inv_reachable h).not_sleeping_of_cond hlk hs hch
  · intro n as s h
    refine ⟨(lockInv_reachable h).unique, ?_⟩
    rintro hlk hfree p ⟨hs, hch⟩
    have := (inv_reachable h).not_sleeping_of_cond hlk hs hch
    simp [sleepLock, hfree] at this

/-- Process 0 takes the lock, and process 1 goes to sleep on it. -/
def sleepTrace : List (Act 2 Empty ℤ) :=
  let p : Fin 2 := ⟨0, Nat.two_pos⟩
  let q : Fin 2 := ⟨1, Nat.one_lt_two⟩
  [.spawn p, .spawn q, .schedule p, .exec p .wait, .exec p .wait, .exec p .wait, .exec p .wait,
    .exec p (.go 3), .exec p .wait, .schedule q, .exec q .wait, .exec q .wait, .exec q .wait,
    .exec q .wait, .exec q .wait, .exec q .wait, .exec q .wait, .exec q .wait]

theorem no_lost_wakeup_trace :
    ∃ s, run (step (sleepLock 2)) (init {}) sleepTrace = some s ∧ s.lk = none ∧
      (s.th 1).state = .SLEEPING ∧ (s.th 1).chan = some .here ∧ (sleepLock 2).cond s.data = false :=
  ⟨_, rfl, rfl, rfl, rfl,
    no_lost_wakeup.1 2 Empty (SleepLock 2) ℤ (sleepLock 2) {} sleepTrace _ rfl rfl 1 rfl rfl⟩

end TatakOS.Sleep
