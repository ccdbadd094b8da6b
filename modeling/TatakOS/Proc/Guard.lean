import TatakOS.Proc.Monitor

/-!
# Mutual exclusion under a spinlock

What holds in every run of a `Client`, whether or not its wakeups are right: at most one thread is
in the code of a lock, and the code finds the data as it may rely on.
-/

namespace TatakOS.Monitor

open Function

variable {n : ℕ} {K C D L A : Type} {M : Client n K C D L A}
  {good : L → D → Prop} {owes : L → C → Prop} {s s' : State n K C D L} {t : Fin n} {a : Act n L A}

/-- The client plays by the rules. `good l d` is what its code may rely on at `l`, and `owes l ch`
that a `wakeup` of `ch` may be owed there. -/
structure Lawful (M : Client n K C D L A) (good : L → D → Prop) (owes : L → C → Prop) : Prop where
  entry : ∀ t d l, M.entry t d l = true → ∀ d', good l d'
  go : ∀ a t l d k l' d', good l d → M.next a t l d k = .go l' d' →
    M.lock l' = M.lock l ∧ good l' d' ∧
      (∀ ch, M.waits ch d' ≠ M.waits ch d → M.chanLock ch = M.lock l) ∧
      (∀ ch, owes l ch ∨ M.waits ch d = true ∧ M.waits ch d' = false → owes l' ch) ∧
      ∀ l2, M.lock l2 ≠ M.lock l → good l2 d → good l2 d'
  sleep : ∀ a t l d k ch l', good l d → M.next a t l d k = .sleep ch l' →
    M.lock l' = M.lock l ∧ M.chanLock ch = M.lock l ∧ M.waits ch d = true ∧ ∀ d', good l' d'
  wakeup : ∀ a t l d k ch l', good l d → M.next a t l d k = .wakeup ch l' →
    M.lock l' = M.lock l ∧ M.chanLock ch = M.lock l ∧ good l' d ∧
      ∀ ch', ch' ≠ ch → owes l ch' → owes l' ch'

/-- The code that is under way finds the data `d` as it may; what goes on later relies on nothing. -/
def Pc.Good (good : L → D → Prop) (d : D) : Pc C L → Prop
  | .idle => True
  | .run l | .wake _ _ l => good l d
  | .acquire l | .sleepLock _ l | .sleepRelease _ l | .sleepSet _ l | .asleep _ l => ∀ d, good l d

theorem Pc.good_iff {pc : Pc C L} {d : D} : pc.Good good d ↔
    (∀ l, pc.code = some l → good l d) ∧ ∀ l, pc.later = some l → ∀ d, good l d := by
  cases pc <;> simp [Pc.Good, Pc.code, Pc.later]

structure Guarded (M : Client n K C D L A) (good : L → D → Prop) (s : State n K C D L) : Prop where
  lk : ∀ t k, s.lk k = some t ↔ (s.th t).pc.holds M = some k
  good : ∀ t, (s.th t).pc.Good good s.data

theorem guarded_init (d : D) : Guarded M good (init d : State n K C D L) := by
  constructor <;> simp [init, Pc.holds, Pc.Good]

theorem Guarded.unique (hg : Guarded M good s) {u : Fin n} {k : K}
    (ht : (s.th t).pc.holds M = some k) (hu : (s.th u).pc.holds M = some k) : u = t := by
  rw [← hg.lk] at ht hu
  exact Option.some.inj (hu.symm.trans ht)

section Moves

variable (hg : Guarded M good s) (hother : ∀ u, u ≠ t → (s'.th u).pc = (s.th u).pc)
include hg hother

/-- Thread `t` moves, and the data stays good for the others. -/
theorem Guarded.move (hlk : ∀ k, s'.lk k = some t ↔ (s'.th t).pc.holds M = some k)
    (hlku : ∀ u k, u ≠ t → (s'.lk k = some u ↔ s.lk k = some u))
    (hgood : (s'.th t).pc.Good good s'.data)
    (hstable : ∀ u, u ≠ t → (s.th u).pc.Good good s.data → (s.th u).pc.Good good s'.data) :
    Guarded M good s' := by
  refine ⟨fun u k => ?_, fun u => ?_⟩ <;> by_cases e : u = t
  · subst e
    exact hlk k
  · rw [hlku u k e, hother u e]
    exact hg.lk u k
  · subst e
    exact hgood
  · rw [hother u e]
    exact hstable u e (hg.good u)

theorem Guarded.keep (hlk : s'.lk = s.lk) (hdata : s'.data = s.data)
    (hholds : (s'.th t).pc.holds M = (s.th t).pc.holds M)
    (hgood : (s'.th t).pc.Good good s.data) : Guarded M good s' := by
  refine hg.move hother ?_ (fun u k _ => by rw [hlk]) (hdata ▸ hgood) fun u _ h => hdata ▸ h
  rw [hlk, hholds]
  exact hg.lk t

theorem Guarded.go (hM : Lawful M good owes) {l l' : L} {x : A}
    (hpc : (s.th t).pc = .run l) (hpc' : (s'.th t).pc = .run l') (hlk : s'.lk = s.lk)
    (hnext : M.next x t l s.data (s.th t).killed = .go l' s'.data) : Guarded M good s' := by
  obtain ⟨hlock, hgood, -, -, hstable⟩ :=
    hM.go x t l _ _ l' _ (by simpa [hpc, Pc.Good] using hg.good t) hnext
  have hholds : (s.th t).pc.holds M = some (M.lock l) := by rw [hpc]; rfl
  refine hg.move hother (fun k => ?_) (fun u k _ => by rw [hlk]) (hpc' ▸ hgood) fun u e h => ?_
  · rw [hlk, hg.lk, hpc, hpc']
    simp [Pc.holds, hlock]
  · rw [Pc.good_iff] at h ⊢
    refine ⟨fun l2 h2 => hstable l2 (fun hsame => ?_) (h.1 l2 h2), h.2⟩
    -- the other thread would hold the same lock
    exact e (hg.unique hholds (hsame ▸ Pc.holds_of_code h2))

variable [DecidableEq K]

theorem Guarded.release {k : K} (hk : (s.th t).pc.holds M = some k)
    (hlk : s'.lk = update s.lk k none) (hdata : s'.data = s.data) (hholds : (s'.th t).pc.holds M = none)
    (hgood : (s'.th t).pc.Good good s.data) : Guarded M good s' := by
  refine hg.move hother (fun k' => ?_) (fun u k' hu => ?_) (hdata ▸ hgood) fun u _ h => hdata ▸ h
  all_goals
    rw [hlk]
    rcases eq_or_ne k' k with rfl | e
  · simp [hholds]
  · simp [e, hg.lk, hk, hholds, e.symm]
  · simp [(hg.lk t k').mpr hk, hu.symm]
  · rw [update_of_ne e]

theorem Guarded.acquire {k : K} (hk : (s.th t).pc.holds M = none) (hfree : s.lk k = none)
    (hlk : s'.lk = update s.lk k (some t)) (hdata : s'.data = s.data)
    (hholds : (s'.th t).pc.holds M = some k) (hgood : (s'.th t).pc.Good good s.data) :
    Guarded M good s' := by
  refine hg.move hother (fun k' => ?_) (fun u k' hu => ?_) (hdata ▸ hgood) fun u _ h => hdata ▸ h
  all_goals
    rw [hlk]
    rcases eq_or_ne k' k with rfl | e
  · simp [hholds]
  · simp [e, hg.lk, hk, hholds, e.symm]
  · simp [hfree, hu.symm]
  · rw [update_of_ne e]

end Moves

theorem Guarded.step [DecidableEq K] [DecidableEq C] (hM : Lawful M good owes) (hg : Guarded M good s)
    (h : step M s a = some s') : Guarded M good s' := by
  obtain ⟨t, hother, hmove⟩ := step_moves h
  have hgood := hg.good t
  cases hmove with
  | quiet hsame hlk hdata _ =>
    refine hg.keep hother hlk hdata hsame.holds ?_
    rwa [Pc.good_iff, hsame.code, hsame.later, ← Pc.good_iff]
  | call l hpc hpc' hentry hlk hdata =>
    refine hg.keep hother hlk hdata (by rw [hpc, hpc']; rfl) ?_
    rw [hpc']
    exact hM.entry t _ l hentry
  | acquire l x hpc hpc' hfree hlk hdata =>
    rw [hpc] at hgood
    refine hg.acquire hother (by rw [hpc]; rfl) hfree hlk hdata (by rw [hpc']; rfl) ?_
    rw [hpc']
    exact hgood _
  | go l l' x hpc hpc' hnext hlk => exact hg.go hother hM hpc hpc' hlk hnext
  | sleep l l' ch x hpc hpc' hnext hlk hdata =>
    rw [hpc] at hgood
    obtain ⟨hlock, -, -, hlater⟩ := hM.sleep x t l _ _ ch l' hgood hnext
    refine hg.keep hother hlk hdata (by rw [hpc, hpc']; simp [Pc.holds, hlock]) ?_
    rw [hpc']
    exact hlater
  | wakeup l l' ch x hpc hpc' hnext hlk hdata =>
    rw [hpc] at hgood
    obtain ⟨hlock, -, hgood', -⟩ := hM.wakeup x t l _ _ ch l' hgood hnext
    refine hg.keep hother hlk hdata (by rw [hpc, hpc']; simp [Pc.holds, hlock]) ?_
    rw [hpc']
    exact hgood'
  | ret l x hpc hpc' _ hlk hdata =>
    refine hg.release hother (by rw [hpc]; rfl) hlk hdata (by rw [hpc']; rfl) ?_
    rw [hpc']
    trivial
  | release l ch x hpc hpc' hlk hdata =>
    rw [hpc] at hgood
    refine hg.release hother (by rw [hpc]; rfl) hlk hdata (by rw [hpc']; rfl) ?_
    rw [hpc']
    exact hgood

end TatakOS.Monitor
