import TatakOS.Proc.Guard

/-!
# Wakeups that are owed

A thread sleeps on a channel only where it may, as long as no client leaves its lock while it owes a
`wakeup` to a sleeper (`Settled`). Between the release of the lock in `sleep` and its wakeup, a
thread is `Committed` to sleep.
-/

namespace TatakOS.Monitor

open Function

variable {n : ℕ} {K C D L A : Type}

/-- The process has released its lock in order to sleep, and has not been woken. -/
def Thread.Committed (x : Thread C L) (ch : C) : Prop :=
  (∃ l, x.pc = .sleepSet ch l) ∨ (∃ l, x.pc = .asleep ch l) ∧ x.state = .SLEEPING

/-- The operation leaves the lock, for good or in order to sleep. -/
def Op.Leaves : Op C D L → Prop
  | .ret | .sleep _ _ => True
  | _ => False

/-- Nobody leaves the lock while a `wakeup` is owed to somebody. -/
def Settled (M : Client n K C D L A) (s : State n K C D L) : Act n L A → Prop
  | .exec t a => ∀ l, (s.th t).pc = .run l → (M.next a t l s.data (s.th t).killed).Leaves →
      ∀ ch, M.chanLock ch = M.lock l → s.owed ch = true → ∀ u, ¬ (s.th u).Committed ch
  | _ => True

/-- The channel of the `sleep` or `wakeup` under way belongs to the lock of the code, and a sleeper
waits for something as long as it holds the lock. -/
def Pc.Waits (M : Client n K C D L A) (d : D) : Pc C L → Prop
  | .idle | .acquire _ | .run _ => True
  | .wake ch _ l | .sleepSet ch l | .asleep ch l => M.chanLock ch = M.lock l
  | .sleepLock ch l | .sleepRelease ch l => M.chanLock ch = M.lock l ∧ M.waits ch d = true

structure Inv (M : Client n K C D L A) (good : L → D → Prop) (owes : L → C → Prop)
    (s : State n K C D L) : Prop extends Guarded M good s where
  state : ∀ t, (s.th t).state = .SLEEPING →
    ∃ ch l, (s.th t).pc = .asleep ch l ∧ (s.th t).chan = some ch
  waits : ∀ t, (s.th t).pc.Waits M s.data
  owed : ∀ ch, s.owed ch = true →
    ∃ t l, (s.th t).pc.code = some l ∧ M.lock l = M.chanLock ch ∧ owes l ch
  /-- A sleeper that must not stay asleep is ahead of the `wakeup` in progress. -/
  committed : ∀ t ch, (s.th t).Committed ch → M.waits ch s.data = true ∨ s.owed ch = true ∨
    ∃ t' j l, (s.th t').pc = .wake ch j l ∧ j ≤ t.val

variable {M : Client n K C D L A} {good : L → D → Prop} {owes : L → C → Prop}
  {s s' : State n K C D L} {t : Fin n} {l : L} {ch : C} {y : Thread C L}

theorem inv_init (M : Client n K C D L A) (good : L → D → Prop) (owes : L → C → Prop) (d : D) :
    Inv M good owes (init d) where
  toGuarded := guarded_init d
  state t h := by cases h
  waits t := trivial
  owed ch h := by cases h
  committed t ch h := by simp [init, Thread.Committed] at h

theorem not_committed_of_code (h : y.pc.code = some l) : ¬ y.Committed ch := by
  rintro (⟨l', hl'⟩ | ⟨⟨l', hl'⟩, -⟩) <;> rw [hl'] at h <;> cases h

theorem Thread.Committed.of_setTh (hc : (update s.th t y t').Committed ch)
    (hy : ¬ y.Committed ch) : t' ≠ t ∧ (s.th t').Committed ch := by
  rcases eq_or_ne t' t with rfl | e
  · rw [update_self] at hc
    exact absurd hc hy
  · rw [update_of_ne e] at hc
    exact ⟨e, hc⟩

/-- The data changes under a lock that the thread at `pc` does not hold. -/
theorem Pc.Waits.of_data {pc : Pc C L} {d d' : D} (h : pc.Waits M d)
    (hsame : ∀ ch, pc.holds M = some (M.chanLock ch) → M.waits ch d' = M.waits ch d) :
    pc.Waits M d' := by
  cases pc with
  | sleepLock ch l | sleepRelease ch l =>
    exact ⟨h.1, (hsame ch (congrArg some h.1.symm)).trans h.2⟩
  | _ => exact h

/-! ## Steps that leave the data alone -/

section

variable (hi : Inv M good owes s)
include hi

/-- A step that changes thread `t`, and perhaps the holder of a lock and what is owed. -/
theorem Inv.set {lk : K → Option (Fin n)} {owed : C → Bool}
    (hg : Guarded M good { s.setTh t y with lk := lk, owed := owed })
    (hstate : y.state = .SLEEPING → ∃ ch l, y.pc = .asleep ch l ∧ y.chan = some ch)
    (hwaits : y.pc.Waits M s.data)
    (howed : ∀ ch, owed ch = true → s.owed ch = true ∧ ∀ l, (s.th t).pc.code = some l →
      M.lock l = M.chanLock ch → owes l ch →
        ∃ l', y.pc.code = some l' ∧ M.lock l' = M.chanLock ch ∧ owes l' ch)
    (hcom : ∀ u ch, (update s.th t y u).Committed ch → M.waits ch s.data = true ∨
      owed ch = true ∨ ∃ t' j l, (update s.th t y t').pc = .wake ch j l ∧ j ≤ u.val) :
    Inv M good owes { s.setTh t y with lk := lk, owed := owed } := by
  refine ⟨hg, fun u => ?_, fun u => ?_, fun ch hch => ?_, hcom⟩
  · rcases th_update s.th t y u with e | e <;> simp only [State.setTh, e]
    exacts [hstate, hi.state u]
  · rcases th_update s.th t y u with e | e <;> simp only [State.setTh, e]
    exacts [hwaits, hi.waits u]
  · obtain ⟨ho, howner⟩ := howed ch hch
    obtain ⟨u, l, hl, hlock, howes⟩ := hi.owed ch ho
    by_cases e : u = t
    · subst e
      obtain ⟨l', hl', hlock'⟩ := howner l hl hlock howes
      exact ⟨u, l', by simpa using hl', hlock'⟩
    · exact ⟨u, l, by simpa [State.setTh, e] using hl, hlock, howes⟩

/-- A thread that is not in `wakeup` moves: the other sleepers are as before. -/
theorem Inv.committed_move (hw : ∀ ch j l, (s.th t).pc = .wake ch j l → y.pc = .wake ch j l)
    (hy : ∀ ch, y.Committed ch → M.waits ch s.data = true ∨ (s.th t).Committed ch)
    (u : Fin n) (ch : C) (h : (update s.th t y u).Committed ch) :
    M.waits ch s.data = true ∨ s.owed ch = true ∨
      ∃ t' j l, (update s.th t y t').pc = .wake ch j l ∧ j ≤ u.val := by
  have hold : M.waits ch s.data = true ∨ (s.th u).Committed ch := by
    by_cases e : u = t
    · subst e
      rw [update_self] at h
      exact hy ch h
    · rw [update_of_ne e] at h
      exact .inr h
  rcases hold with hold | hold
  · exact .inl hold
  · refine (hi.committed u ch hold).imp_right (.imp_right ?_)
    rintro ⟨t', j, l, hpc, hj⟩
    refine ⟨t', j, l, ?_, hj⟩
    rcases eq_or_ne t' t with rfl | e
    · rw [update_self]
      exact hw ch j l hpc
    · rwa [update_of_ne e]

/-- The program counter stays, and nobody falls asleep. -/
theorem Inv.set_state (hpc : y.pc = (s.th t).pc)
    (hstate : y.state = .SLEEPING → (s.th t).state = .SLEEPING ∧ y.chan = (s.th t).chan) :
    Inv M good owes (s.setTh t y) := by
  have hg : Guarded M good (s.setTh t y) :=
    hi.keep (fun u hu => congrArg Thread.pc (setTh_ne s hu y)) rfl rfl (by simp [hpc])
      (by simpa [hpc, Pc.Good] using hi.good t)
  refine hi.set hg (fun hs => ?_) (hpc ▸ hi.waits t)
    (fun ch ho => ⟨ho, fun l hl hlock howes => ⟨l, hpc ▸ hl, hlock, howes⟩⟩) ?_
  · obtain ⟨h1, h2⟩ := hstate hs
    rw [hpc, h2]
    exact hi.state t h1
  · refine hi.committed_move (fun ch j l h => hpc.trans h) fun ch h => .inr ?_
    rcases h with ⟨l, h⟩ | ⟨⟨l, h⟩, hs⟩
    · exact .inl ⟨l, hpc ▸ h⟩
    · exact .inr ⟨⟨l, hpc ▸ h⟩, (hstate hs).1⟩

/-- A thread that is not in its code moves; if it commits itself to sleep, it may. -/
theorem Inv.goto {lk : K → Option (Fin n)} (hg : Guarded M good { s.setTh t y with lk := lk })
    (hcode : (s.th t).pc.code = none) (hwaits : y.pc.Waits M s.data)
    (hstate : y.state = .SLEEPING → ∃ ch l, y.pc = .asleep ch l ∧ y.chan = some ch)
    (hcom : ∀ ch, y.Committed ch → M.waits ch s.data = true ∨ (s.th t).Committed ch) :
    Inv M good owes { s.setTh t y with lk := lk } := by
  refine hi.set hg hstate hwaits (fun ch ho => ⟨ho, fun l hl => ?_⟩)
    (hi.committed_move (fun ch j l h => ?_) hcom)
  · rw [hcode] at hl
    cases hl
  · rw [h] at hcode
    cases hcode

/-- A thread leaves its lock, or is about to: it owes nothing to anybody. -/
theorem Inv.leave [DecidableEq K] {pc' : Pc C L} {lk : K → Option (Fin n)}
    (hg : Guarded M good { s.setTh t { s.th t with pc := pc' } with
      lk := lk, owed := M.settle (M.lock l) s.owed })
    (hrun : (s.th t).state = .RUNNING) (hpc : (s.th t).pc = .run l) (hwaits : pc'.Waits M s.data)
    (hpc' : ∀ ch l, pc' ≠ .sleepSet ch l)
    (hset : ∀ ch, M.chanLock ch = M.lock l → s.owed ch = true → ∀ u, ¬ (s.th u).Committed ch) :
    Inv M good owes { s.setTh t { s.th t with pc := pc' } with
      lk := lk, owed := M.settle (M.lock l) s.owed } := by
  refine hi.set hg (by simp [hrun]) hwaits (fun ch hch => ?_) fun u ch hcom => ?_
  · simp only [Client.settle, Bool.and_eq_true, decide_eq_true_eq] at hch
    refine ⟨hch.1, fun l' hl' hlock => ?_⟩
    rw [hpc] at hl'
    cases hl'
    exact absurd hlock.symm hch.2
  · have hnew : ∀ ch, ¬ Thread.Committed { s.th t with pc := pc' } ch := by
      rintro ch (⟨l2, h⟩ | ⟨-, h⟩)
      · exact hpc' ch l2 h
      · rw [hrun] at h
        cases h
    have hold := (hcom.of_setTh (hnew ch)).2
    rcases hi.committed_move (fun ch j l' h => by rw [hpc] at h; cases h)
      (fun ch h => absurd h (hnew ch)) u ch hcom with h | h | h
    · exact .inl h
    · by_cases hk : M.chanLock ch = M.lock l
      · exact absurd hold (hset ch hk h u)
      · exact .inr (.inl (by simp [Client.settle, h, hk]))
    · exact .inr (.inr h)

theorem Inv.wakeup [DecidableEq C] {l' : L}
    (hg : Guarded M good { s.setTh t { s.th t with pc := .wake ch 0 l' } with
      owed := update s.owed ch false })
    (hrun : (s.th t).state = .RUNNING) (hpc : (s.th t).pc = .run l)
    (hlock : M.lock l' = M.lock l) (hch : M.chanLock ch = M.lock l)
    (howes : ∀ ch', ch' ≠ ch → owes l ch' → owes l' ch') :
    Inv M good owes { s.setTh t { s.th t with pc := .wake ch 0 l' } with
      owed := update s.owed ch false } := by
  refine hi.set hg (by simp [hrun]) (hch.trans hlock.symm) (fun ch' ho => ?_)
    fun u ch' hcom => ?_
  · have e : ch' ≠ ch := by
      rintro rfl
      simp at ho
    rw [update_of_ne e] at ho
    refine ⟨ho, fun l2 hl2 hlock2 howes2 => ⟨l', rfl, ?_⟩⟩
    rw [hpc] at hl2
    cases hl2
    exact ⟨hlock.trans hlock2, howes ch' e howes2⟩
  · by_cases e : ch' = ch
    · subst e
      exact .inr (.inr ⟨t, 0, l', by simp, Nat.zero_le _⟩)
    · rw [update_of_ne e]
      exact hi.committed_move (fun ch j l h => by rw [hpc] at h; cases h)
        (fun ch h => absurd h (not_committed_of_code rfl)) u ch' hcom

/-- `wakeup` moves on from slot `j`, where nobody sleeps on the channel. -/
theorem Inv.scan {j : ℕ} {pc' : Pc C L}
    (hg : Guarded M good (s.setTh t { s.th t with pc := pc' }))
    (hrun : (s.th t).state = .RUNNING) (hpc : (s.th t).pc = .wake ch j l)
    (hpc' : pc' = .wake ch (j + 1) l ∨ pc' = .run l ∧ n ≤ j)
    (hj : ∀ u : Fin n, u.val = j → ¬ (s.th u).Committed ch) :
    Inv M good owes (s.setTh t { s.th t with pc := pc' }) := by
  have hcode : pc'.code = some l := by rcases hpc' with rfl | ⟨rfl, -⟩ <;> rfl
  have hold := hi.waits t
  rw [hpc] at hold
  refine hi.set hg (by simp [hrun]) ?_ (fun ch ho => ⟨ho, fun l' hl' hlock howes => ?_⟩)
    fun u ch' hcom => ?_
  · rcases hpc' with rfl | ⟨rfl, -⟩
    exacts [hold, trivial]
  · rw [hpc] at hl'
    cases hl'
    exact ⟨l, hcode, hlock, howes⟩
  · obtain ⟨-, hcom'⟩ := hcom.of_setTh (not_committed_of_code hcode)
    refine (hi.committed u ch' hcom').imp_right (.imp_right ?_)
    rintro ⟨t', i, l', hw, hle⟩
    rcases eq_or_ne t' t with rfl | e
    · rw [hpc] at hw
      cases hw
      have hne : u.val ≠ j := fun e => hj u e hcom'
      rcases hpc' with rfl | ⟨-, hn⟩
      · exact ⟨t', j + 1, l, by simp, by omega⟩
      · have := u.isLt
        omega
    · exact ⟨t', i, l', by rwa [update_of_ne e], hle⟩

/-! ## A step of the code -/

theorem Inv.go (hM : Lawful M good owes) {a : A} {l' : L} {d : D}
    (hg : Guarded M good { s.setTh t { s.th t with pc := .run l' } with
      data := d, owed := fun ch => s.owed ch || (M.waits ch s.data && !M.waits ch d) })
    (hrun : (s.th t).state = .RUNNING) (hpc : (s.th t).pc = .run l)
    (hnext : M.next a t l s.data (s.th t).killed = .go l' d) :
    Inv M good owes { s.setTh t { s.th t with pc := .run l' } with
      data := d, owed := fun ch => s.owed ch || (M.waits ch s.data && !M.waits ch d) } := by
  obtain ⟨hlock, -, hother, howes, -⟩ :=
    hM.go a t l s.data _ l' d (by simpa [hpc, Pc.Good] using hi.good t) hnext
  have hholds : (s.th t).pc.holds M = some (M.lock l) := by rw [hpc]; rfl
  refine ⟨hg, fun u => ?_, fun u => ?_, fun ch hch => ?_, fun u ch hcom => ?_⟩
  · rcases th_update s.th t { s.th t with pc := .run l' } u with e | e <;> simp only [State.setTh, e]
    exacts [by simp [hrun], hi.state u]
  · by_cases e : u = t
    · subst e
      rw [setTh_self]
      trivial
    · rw [setTh_ne _ e]
      -- another thread holds another lock, and what it waits for has not changed
      refine (hi.waits u).of_data fun ch hk => ?_
      by_contra hc
      exact e (hi.unique hholds (hother ch hc ▸ hk))
  · by_cases ho : s.owed ch = true
    · obtain ⟨u, l2, hl2, hlock2, howes2⟩ := hi.owed ch ho
      by_cases e : u = t
      · subst e
        rw [hpc] at hl2
        cases hl2
        exact ⟨u, l', by simp [Pc.code], hlock.trans hlock2, howes ch (.inl howes2)⟩
      · exact ⟨u, l2, by simpa [State.setTh, e] using hl2, hlock2, howes2⟩
    · have hchange : M.waits ch s.data = true ∧ M.waits ch d = false := by
        simpa [ho] using hch
      refine ⟨t, l', by simp [Pc.code], ?_, howes ch (.inr hchange)⟩
      rw [hlock, hother ch (by simp [hchange])]
  · obtain ⟨-, hold⟩ := hcom.of_setTh (not_committed_of_code rfl)
    rcases hi.committed u ch hold with h | h | ⟨t', j, l2, hpc', hj⟩
    · by_cases hd : M.waits ch d = true
      · exact .inl hd
      · exact .inr (.inl (by simp [h, hd]))
    · exact .inr (.inl (by simp [h]))
    · refine .inr (.inr ⟨t', j, l2, ?_, hj⟩)
      have e : t' ≠ t := by
        rintro rfl
        rw [hpc] at hpc'
        cases hpc'
      simpa [State.setTh, e] using hpc'

/-! ## Runs -/

theorem Inv.owes_of_owed (hpc : (s.th t).pc = .run l)
    (hch : M.chanLock ch = M.lock l) (ho : s.owed ch = true) : owes l ch := by
  obtain ⟨u, l', hcode, hlock, howes⟩ := hi.owed ch ho
  have hholds : (s.th t).pc.holds M = some (M.lock l) := by rw [hpc]; rfl
  obtain rfl : u = t := hi.unique hholds (by rw [Pc.holds_of_code hcode, hlock, hch])
  rw [hpc] at hcode
  cases hcode
  exact howes

/-- Whoever sleeps on a channel may stay asleep, wherever the lock is free. -/
theorem Inv.waits_of_sleeping (hlk : s.lk (M.chanLock ch) = none)
    (hs : (s.th t).state = .SLEEPING) (hch : (s.th t).chan = some ch) : M.waits ch s.data = true := by
  obtain ⟨ch', l, hpc, hchan⟩ := hi.state t hs
  obtain rfl : ch = ch' := Option.some.inj (hch.symm.trans hchan)
  have hfree : ∀ u, (s.th u).pc.holds M ≠ some (M.chanLock ch) := by
    intro u hk
    rw [← hi.lk, hlk] at hk
    cases hk
  rcases hi.committed t ch (.inr ⟨⟨l, hpc⟩, hs⟩) with h1 | h1 | ⟨u, j, l', hpc', -⟩
  · exact h1
  · obtain ⟨u, l', hcode, hlock, -⟩ := hi.owed ch h1
    exact absurd (hlock ▸ Pc.holds_of_code hcode) (hfree u)
  · have hlock := hi.waits u
    rw [hpc'] at hlock
    exact absurd (by rw [hpc', hlock]; rfl) (hfree u)

variable [DecidableEq C]

theorem wakeup1_not_committed {u : Fin n}
    (hl : (s.th u).locked = false) : ¬ (wakeup1 ch (s.th u)).Committed ch := by
  unfold wakeup1
  split_ifs with h
  · rintro (⟨l, hpc⟩ | ⟨-, hs⟩)
    · simp [Thread.locked, show (s.th u).pc = .sleepSet ch l from hpc] at hl
    · cases hs
  · rintro (⟨l, hpc⟩ | ⟨⟨l, hpc⟩, hs⟩)
    · simp [Thread.locked, hpc] at hl
    · obtain ⟨ch', l', hpc', hchan⟩ := hi.state u hs
      rw [hpc] at hpc'
      cases hpc'
      exact h ⟨hs, hchan⟩

variable [DecidableEq K]

theorem inv_exec (hM : Lawful M good owes) {a : A} (hg : Guarded M good s')
    (hrun : (s.th t).state = .RUNNING) (hset : Settled M s (.exec t a))
    (h : exec M s t a = some s') : Inv M good owes s' := by
  have hwaits := hi.waits t
  cases hpc : (s.th t).pc with (simp only [exec, hpc] at h; rw [hpc] at hwaits)
  | idle | asleep ch l => cases h
  | acquire l =>
    split_ifs at h with hfree
    cases h
    exact hi.goto hg (by rw [hpc]; rfl) trivial (by simp [hrun])
      fun ch h => absurd h (not_committed_of_code rfl)
  | run l =>
    have hgood := hi.good t
    rw [hpc] at hgood
    have hset := hset l hpc
    cases hnext : M.next a t l s.data (s.th t).killed with simp only [hnext] at h
    | go l' d =>
      cases h
      exact hi.go hM hg hrun hpc hnext
    | sleep ch l' =>
      cases h
      obtain ⟨hlock, hch, hw, -⟩ := hM.sleep a t l s.data _ ch l' hgood hnext
      exact hi.leave hg hrun hpc ⟨hch.trans hlock.symm, hw⟩ (by simp) (hset (by rw [hnext]; trivial))
    | wakeup ch l' =>
      cases h
      obtain ⟨hlock, hch, -, howes⟩ := hM.wakeup a t l s.data _ ch l' hgood hnext
      exact hi.wakeup hg hrun hpc hlock hch howes
    | ret =>
      cases h
      exact hi.leave hg hrun hpc trivial (by simp) (hset (by rw [hnext]; trivial))
  | wake ch j l =>
    split_ifs at h with hj hself hl
    · cases h
      -- `wakeup` skips `myproc()`, which runs
      refine hi.scan hg hrun hpc (.inl rfl) fun u hu => ?_
      obtain rfl : u = t := by rw [← hself]; exact Fin.ext hu
      exact not_committed_of_code (by rw [hpc]; rfl)
    · cases h
      have hi' : Inv M good owes (s.setTh ⟨j, hj⟩ (wakeup1 ch (s.th ⟨j, hj⟩))) := by
        refine hi.set_state (wakeup1_pc ch _) fun hs => ?_
        unfold wakeup1 at hs ⊢
        split_ifs at hs ⊢ with hc
        exact ⟨hs, rfl⟩
      have hth := setTh_ne s (fun e => hself e.symm) (wakeup1 ch (s.th ⟨j, hj⟩))
      rw [← hth] at hg ⊢
      refine hi'.scan hg (by rw [hth]; exact hrun) (by rw [hth]; exact hpc) (.inl rfl) fun u hu => ?_
      obtain rfl : u = ⟨j, hj⟩ := Fin.ext hu
      simpa using wakeup1_not_committed hi (by simpa using hl)
    · cases h
      exact hi.scan hg hrun hpc (.inr ⟨rfl, by omega⟩) fun u hu => by omega
  | sleepLock ch l =>
    cases h
    refine hi.goto hg (by rw [hpc]; rfl) hwaits (by simp [hrun]) ?_
    rintro ch' (⟨l', h⟩ | ⟨⟨l', h⟩, -⟩) <;> cases h
  | sleepRelease ch l =>
    cases h
    refine hi.goto hg (by rw [hpc]; rfl) hwaits.1 (by simp [hrun]) ?_
    rintro ch' (⟨l', h⟩ | ⟨⟨l', h⟩, -⟩) <;> cases h
    exact .inl hwaits.2
  | sleepSet ch l =>
    cases h
    refine hi.goto hg (by rw [hpc]; rfl) hwaits (fun _ => ⟨ch, l, rfl, rfl⟩) ?_
    rintro ch' (⟨l', h⟩ | ⟨⟨l', h⟩, -⟩) <;> cases h
    exact .inr (.inl ⟨l, hpc⟩)

theorem inv_step (hM : Lawful M good owes) {a : Act n L A} (hset : Settled M s a)
    (h : step M s a = some s') : Inv M good owes s' := by
  have hg := hi.toGuarded.step hM h
  cases a with simp only [step] at h
  | call t l =>
    split at h
    · rename_i hpc
      split_ifs at h with hc
      cases h
      refine hi.goto hg (by rw [hpc]; rfl) trivial (by simp [hc.1]) ?_
      rintro ch (⟨l', h⟩ | ⟨⟨l', h⟩, -⟩) <;> cases h
    · cases h
  | exec t a =>
    split_ifs at h with hrun
    exact inv_exec hi hM hg hrun hset h
  | schedule t =>
    split_ifs at h with hc
    cases h
    cases hpc : (s.th t).pc with rw [hpc] at hg
    | asleep ch l =>
      refine hi.goto hg (by rw [hpc]; rfl) trivial (by simp) ?_
      rintro ch (⟨l', h⟩ | ⟨⟨l', h⟩, -⟩) <;> cases h
    | _ => exact hi.set_state (by rw [hpc]; rfl) (by simp)
  | yield t =>
    split_ifs at h with hc
    cases h
    exact hi.set_state rfl (by simp)
  | kill t =>
    split_ifs at h with hl hs
    · cases h
      exact hi.set_state rfl (by simp)
    · cases h
      exact hi.set_state rfl fun h' => ⟨h', rfl⟩
  | renew t =>
    split at h
    · cases h
      exact hi.set_state rfl fun h' => ⟨h', rfl⟩
    · cases h

end

end TatakOS.Monitor
