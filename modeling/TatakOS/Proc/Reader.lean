import TatakOS.Proc.Monitor

/-!
# Calls that hand bytes to the user

A call takes bytes out of a buffer one at a time, and copies each to the next address of the user's
memory. A byte whose copy fails is gone. So a call stores what it takes out exactly if the
destination of each copy is mapped.
-/

namespace TatakOS.Monitor

structure Reader (D L A : Type) where
  /-- The offset of the next byte in the user's memory, as long as the call takes bytes. -/
  offset : L → Option ℤ
  /-- The byte that the code at the place copies to the user. -/
  copies : L → D → Option UInt8
  /-- The copy succeeds. -/
  copied : A → Bool
  /-- The bytes that are in the buffer before, and no longer after. -/
  removed : D → D → List UInt8

variable {n : ℕ} {K C D L A : Type} {M : Client n K C D L A}
  {R : Reader D L A} {s s' : State n K C D L} {t : Fin n} {a : Act n L A} {ok : ℤ → Bool}

/-- What a step of thread `t` takes out of the buffer. -/
def Reader.removedBy [DecidableEq K] [DecidableEq C] (R : Reader D L A) (M : Client n K C D L A)
    (t : Fin n) (s : State n K C D L) : Act n L A → List UInt8
  | .exec u x =>
    if u = t then ((step M s (.exec u x)).map fun s' => R.removed s.data s'.data).getD [] else []
  | _ => []

/-- What a step of thread `t` stores in the user's memory. -/
def Reader.storedBy (R : Reader D L A) (t : Fin n) (s : State n K C D L) : Act n L A → List UInt8
  | .exec u x =>
    if u = t then
      match (s.th t).pc with
      | .run l => if R.copied x then (R.copies l s.data).toList else []
      | _ => []
    else []
  | _ => []

/-- The step is part of one call of thread `t`, and `ok` says where its destination is mapped. -/
def Reader.OneCall (R : Reader D L A) (ok : ℤ → Bool) (t : Fin n) (s : State n K C D L) :
    Act n L A → Prop
  | .exec u x => u = t → ∀ l c, (s.th t).pc = .run l → R.offset l = some c →
      (R.copies l s.data).isSome → R.copied x = ok c
  | .call u _ => u ≠ t
  | _ => True

/-- If the step copies a byte of thread `t`, the address of its destination is mapped. -/
def Reader.Mapped (R : Reader D L A) (ok : ℤ → Bool) (t : Fin n) (s : State n K C D L) :
    Act n L A → Prop
  | .exec u _ => u = t → ∀ l c, (s.th t).pc = .run l → R.offset l = some c →
      (R.copies l s.data).isSome → ok c = true
  | _ => True

/-- The code takes out of the buffer what it copies, and nothing else. -/
structure Reader.Lawful (R : Reader D L A) (M : Client n K C D L A) : Prop where
  same : ∀ d, R.removed d d = []
  offset : ∀ l d b, R.copies l d = some b → (R.offset l).isSome
  go_of_copies : ∀ x t l d k b, R.copies l d = some b → ∃ l' d', M.next x t l d k = .go l' d'
  go : ∀ x t l d k l' d', M.next x t l d k = .go l' d' → R.removed d d' = (R.copies l d).toList

section Machine

variable [DecidableEq K] [DecidableEq C]

theorem Reader.removedBy_exec {x : A} (h : step M s (.exec t x) = some s') :
    R.removedBy M t s (.exec t x) = R.removed s.data s'.data := by
  rw [Reader.removedBy, if_pos rfl, h]
  rfl

/-- What a step of the run of thread `t` does to the two counts. -/
structure Reader.Delivers (R : Reader D L A) (M : Client n K C D L A) (ok : ℤ → Bool) (t : Fin n)
    (s : State n K C D L) (a : Act n L A) : Prop where
  le : (R.storedBy t s a).length ≤ (R.removedBy M t s a).length
  eq_iff : (R.removedBy M t s a).length = (R.storedBy t s a).length ↔ R.Mapped ok t s a

/-- A step that copies nothing takes nothing out. -/
theorem Reader.Delivers.silent (h1 : R.removedBy M t s a = [])
    (h2 : ∀ x l, a = .exec t x → (s.th t).pc = .run l → R.copies l s.data = none) :
    R.Delivers M ok t s a := by
  have hst : R.storedBy t s a = [] := by
    cases a with
    | exec u x =>
      by_cases e : u = t
      · subst e
        rw [Reader.storedBy, if_pos rfl]
        split
        next l hpc => simp [h2 x l rfl hpc]
        next => rfl
      · exact if_neg e
    | _ => rfl
  have hmapped : R.Mapped ok t s a := by
    cases a with
    | exec u x =>
      rintro rfl l c hpc - hb
      rw [h2 x l rfl hpc] at hb
      cases hb
    | _ => trivial
  exact ⟨by rw [hst]; exact Nat.zero_le _, by rw [h1, hst]; exact iff_of_true rfl hmapped⟩

theorem Reader.Delivers.go (hR : R.Lawful M) {l l' : L} {x : A}
    (h : step M s (.exec t x) = some s') (hok : R.OneCall ok t s (.exec t x))
    (hpc : (s.th t).pc = .run l)
    (hnext : M.next x t l s.data (s.th t).killed = .go l' s'.data) :
    R.Delivers M ok t s (.exec t x) := by
  have hrem := (removedBy_exec (R := R) h).trans (hR.go _ _ _ _ _ _ _ hnext)
  cases hb : R.copies l s.data with rw [hb] at hrem
  | none =>
    refine .silent hrem fun y l2 _ hl2 => ?_
    rw [hpc] at hl2
    cases hl2
    exact hb
  | some b =>
    obtain ⟨c, hc⟩ := Option.isSome_iff_exists.mp (hR.offset l _ b hb)
    have hcopied := hok rfl l c hpc hc (by rw [hb]; rfl)
    have hst : R.storedBy t s (.exec t x) = if ok c then [b] else [] := by
      rw [Reader.storedBy, if_pos rfl, hpc, ← hcopied]
      simp [hb]
    have hmapped : R.Mapped ok t s (.exec t x) ↔ ok c = true := by
      refine ⟨fun hm => hm rfl l c hpc hc (by rw [hb]; rfl), fun hm _ l2 c2 hl2 hc2 _ => ?_⟩
      rw [hpc] at hl2
      cases hl2
      rwa [← Option.some.inj (hc.symm.trans hc2)]
    constructor
    · rw [hrem, hst]
      split_ifs <;> simp
    · rw [hrem, hst, hmapped]
      split_ifs with hm <;> simp [hm]

theorem Reader.delivers (hR : R.Lawful M) (h : step M s a = some s') (hok : R.OneCall ok t s a) :
    R.Delivers M ok t s a := by
  cases a with
  | exec v x =>
    by_cases e : v = t
    · subst e
      -- a step of `v` itself, which copies only where its code goes on
      obtain ⟨u, hother, hmove⟩ := step_moves h
      have hsilent : s'.data = s.data → (∀ l, (s.th v).pc = .run l → ∀ l' d',
          M.next x v l s.data (s.th v).killed ≠ .go l' d') → R.Delivers M ok v s (.exec v x) := by
        intro hdata hgo
        refine .silent (by rw [removedBy_exec h, hdata, hR.same]) fun y l e hpc => ?_
        cases e
        cases hb : R.copies l s.data with
        | none => rfl
        | some b =>
          obtain ⟨l', d', h'⟩ := hR.go_of_copies x v l _ (s.th v).killed b hb
          exact absurd h' (hgo l hpc l' d')
      cases hmove with
      | quiet _ _ hdata hquiet => exact hsilent hdata fun l hpc => absurd hpc (hquiet l)
      | go l l' _ hpc _ hnext _ => exact .go hR h hok hpc hnext
      | acquire l _ hpc _ _ _ hdata | release l ch _ hpc _ _ hdata =>
        exact hsilent hdata fun l hpc' => by rw [hpc] at hpc'; cases hpc'
      | sleep l _ _ _ hpc _ hnext _ hdata | wakeup l _ _ _ hpc _ hnext _ hdata
      | ret l _ hpc _ hnext _ hdata =>
        refine hsilent hdata fun l2 hpc' => ?_
        rw [hpc] at hpc'
        cases hpc'
        rw [hnext]
        nofun
    · exact .silent (if_neg e) fun y l e' => absurd (Act.exec.inj e').1 e
  | _ => exact .silent rfl nofun

/-- The bytes that thread `t` takes out of the buffer in a run. -/
def Reader.takes (R : Reader D L A) (M : Client n K C D L A) (t : Fin n) (s : State n K C D L)
    (as : List (Act n L A)) : List UInt8 := trace (step M) (R.removedBy M t) s as

/-- The bytes that thread `t` stores in the user's memory in a run. -/
def Reader.stores (R : Reader D L A) (M : Client n K C D L A) (t : Fin n) (s : State n K C D L)
    (as : List (Act n L A)) : List UInt8 := trace (step M) (R.storedBy t) s as

variable {as : List (Act n L A)}

/-- A call stores as many bytes as it takes out exactly if each copy has somewhere to go. -/
theorem Reader.delivers_iff (hR : R.Lawful M) (hrun : run (step M) s as = some s')
    (hok : RunMeets (step M) (R.OneCall ok t) s as) :
    (R.stores M t s as).length ≤ (R.takes M t s as).length ∧
      ((R.takes M t s as).length = (R.stores M t s as).length ↔
        RunMeets (step M) (R.Mapped ok t) s as) := by
  induction as generalizing s with
  | nil => exact ⟨le_rfl, iff_of_true rfl trivial⟩
  | cons a as ih =>
    obtain ⟨s1, h1, h2⟩ := run_cons_eq_some.mp hrun
    obtain ⟨hle, heq⟩ := Reader.delivers hR h1 hok.1
    obtain ⟨hle', heq'⟩ := ih h2 (hok.2 s1 h1)
    have hmeets : RunMeets (step M) (R.Mapped ok t) s (a :: as) ↔
        R.Mapped ok t s a ∧ RunMeets (step M) (R.Mapped ok t) s1 as :=
      ⟨fun h => ⟨h.1, h.2 s1 h1⟩, fun h => .cons h.1 h1 h.2⟩
    rw [hmeets, ← heq, ← heq', takes, stores, trace_cons h1, trace_cons h1, List.length_append,
      List.length_append]
    unfold takes stores at hle' ⊢
    omega

end Machine

end TatakOS.Monitor
