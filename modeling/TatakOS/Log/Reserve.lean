import TatakOS.Base.Run
import TatakOS.Log.Basic

/-!
# Does the log reservation suffice?

`begin_op` admits operations as long as `LOGSIZE` blocks are enough for all of them, and `mkfs`
makes a log of `LOGSIZE` blocks; but one of these holds the header. A run of operations that keep to
`MAXOPBLOCKS` blocks each meets the panic exactly when some `log_write` is called with `LOGSIZE - 1`
distinct blocks already logged by the group.
-/

namespace TatakOS.Logging

open Function

/-- The log and the operations that use it. `T` is the type of the processes. -/
structure Ops (T : Type) where
  log : Log
  /-- The distinct blocks that the operation of each process has logged, if it is in one. -/
  op : T → Option (List ℕ) := fun _ => none
  /-- The distinct blocks logged since the last commit. -/
  group : List ℕ := []
  panic : Option Panic := none

inductive OpAct (T : Type)
  | begin (t : T)
  | write (t : T) (b : ℕ)
  | done (t : T)
  /-- `commit` clears the log. -/
  | clear
  /-- `end_op` after `commit`. -/
  | committed

variable {T : Type} [DecidableEq T]

/-- `mkfs` sets `sb.nlog = LOGSIZE`. -/
def mkfsLog : Ops T := { log := { size := LOGSIZE } }

/-- The operations keep to their budget: `write` is only taken while the operation stays within
`MAXOPBLOCKS` distinct blocks. -/
def opStep (s : Ops T) : OpAct T → Option (Ops T)
  | .begin t =>
    if s.panic = none ∧ s.op t = none then
      (beginOp s.log).map fun l => { s with log := l, op := update s.op t (some []) }
    else none
  | .write t b =>
    match s.panic, s.op t with
    | none, some bs =>
      if (bs.insert b).length ≤ MAXOPBLOCKS then
        match logWrite s.log b with
        | .ok (l, _) =>
          some { s with
            log := l, op := update s.op t (some (bs.insert b)), group := s.group.insert b }
        | .error e => some { s with panic := some e }
      else none
    | _, _ => none
  | .done t =>
    if s.panic = none ∧ s.op t ≠ none then
      match endOp s.log with
      | .ok (l, _) => some { s with log := l, op := update s.op t none }
      | .error e => some { s with panic := some e }
    else none
  | .clear =>
    if s.panic = none ∧ s.log.committing then
      some { s with log := { s.log with lh := [] }, group := [] }
    else none
  | .committed =>
    if s.panic = none ∧ s.log.committing ∧ s.log.lh = [] then
      some { s with log := { s.log with committing := false } }
    else none

/-! ## The log holds the blocks of the group -/

structure Ops.Ok (s : Ops T) : Prop where
  size : s.log.size = LOGSIZE
  group : s.log.lh = s.group.reverse

omit [DecidableEq T] in
theorem ok_mkfsLog : (mkfsLog : Ops T).Ok := ⟨rfl, rfl⟩

variable {s : Ops T}

omit [DecidableEq T] in
theorem logWrite_group {b : ℕ} {l : Log} {new : Bool} (hs : s.Ok)
    (h : logWrite s.log b = .ok (l, new)) :
    l.size = LOGSIZE ∧ l.lh = (s.group.insert b).reverse := by
  have hmem : b ∈ s.log.lh ↔ b ∈ s.group := by rw [hs.group, List.mem_reverse]
  obtain ⟨-, -, -, ⟨hb, rfl, -⟩ | ⟨hb, rfl, -⟩⟩ := logWrite_eq_ok h
  · exact ⟨hs.size, by rw [List.insert_of_mem (hmem.mp hb), hs.group]⟩
  · refine ⟨hs.size, ?_⟩
    rw [List.insert_of_not_mem (fun h => hb (hmem.mpr h)), List.reverse_cons, hs.group]

theorem ok_opStep {s s' : Ops T} {a : OpAct T} (hs : s.Ok) (h : opStep s a = some s') : s'.Ok := by
  cases a with simp only [opStep] at h
  | begin t =>
    split_ifs at h
    obtain ⟨l, hl, rfl⟩ := Option.map_eq_some_iff.mp h
    obtain ⟨-, rfl⟩ := beginOp_eq_some hl
    exact ⟨hs.size, hs.group⟩
  | write t b =>
    split at h
    · split_ifs at h
      split at h
      · rename_i l new hl
        cases h
        exact ⟨(logWrite_group hs hl).1, (logWrite_group hs hl).2⟩
      · cases h; exact ⟨hs.size, hs.group⟩
    · cases h
  | done t =>
    split_ifs at h
    split at h
    · rename_i l new hl
      cases h
      obtain ⟨-, hsize, hlh, -⟩ := endOp_eq_ok hl
      exact ⟨hsize.trans hs.size, hlh.trans hs.group⟩
    · cases h; exact ⟨hs.size, hs.group⟩
  | clear =>
    split_ifs at h
    cases h
    exact ⟨hs.size, rfl⟩
  | committed =>
    split_ifs at h
    cases h
    exact ⟨hs.size, hs.group⟩

/-! ## When `log_write` panics -/

/-- The step does not end in `panic("too big a transaction")`. -/
def NotTooBig (s : Ops T) (a : OpAct T) : Prop :=
  ∀ s', opStep s a = some s' → s'.panic ≠ some .tooBig

/-- The step is a `log_write` of a group that has logged all of the log's data blocks. -/
def WritesFull (s : Ops T) (a : OpAct T) : Prop :=
  ∃ t b, a = .write t b ∧ opStep s a ≠ none ∧ LOGSIZE - 1 ≤ s.group.length

omit [DecidableEq T] in
theorem logWrite_tooBig_iff {b : ℕ} (hs : s.Ok) :
    logWrite s.log b = .error .tooBig ↔ LOGSIZE - 1 ≤ s.group.length := by
  have hlen : s.log.lh.length = s.group.length := by rw [hs.group, List.length_reverse]
  unfold logWrite
  rw [hlen, hs.size]
  constructor
  · intro h
    split_ifs at h with h1 h2 h3
    · omega
    · simp at h
  · intro h
    rw [if_pos (.inr h)]

theorem notTooBig_iff (hs : s.Ok) (a : OpAct T) : NotTooBig s a ↔ ¬ WritesFull s a := by
  constructor
  · rintro hn ⟨t, b, rfl, hen, hfull⟩
    have hpanic := (logWrite_tooBig_iff (b := b) hs).mpr hfull
    obtain ⟨s', h⟩ := Option.ne_none_iff_exists'.mp hen
    refine hn s' h ?_
    simp only [opStep, hpanic] at h
    split at h
    · split_ifs at h
      cases h
      rfl
    · cases h
  · intro hn s' h hp
    cases a with
    | write t b =>
      have hen : opStep s (.write t b) ≠ none := by simp [h]
      simp only [opStep] at h
      split at h
      · rename_i hnone hop
        split_ifs at h
        split at h
        · cases h
          simp [hnone] at hp
        · rename_i e he
          cases h
          obtain rfl : e = .tooBig := by simpa using hp
          exact hn ⟨t, b, rfl, hen, (logWrite_tooBig_iff hs).mp he⟩
      · cases h
    | begin t =>
      simp only [opStep] at h
      split_ifs at h with hc
      obtain ⟨l, hl, rfl⟩ := Option.map_eq_some_iff.mp h
      simp [hc.1] at hp
    | done t =>
      simp only [opStep, endOp] at h
      split_ifs at h with hc h1 h2
      all_goals cases h
      all_goals simp [hc.1] at hp
    | clear | committed =>
      simp only [opStep] at h
      split_ifs at h with hc
      cases h
      simp [hc.1] at hp

theorem tooBig_iff (as : List (OpAct T)) : RunMeets opStep NotTooBig (mkfsLog : Ops T) as ↔
      RunMeets opStep (fun s a => ¬ WritesFull s a) mkfsLog as := by
  constructor
  · exact RunMeets.of_inv (I := Ops.Ok) (fun _ _ _ hs _ h => ok_opStep hs h)
      (fun s a hs => (notTooBig_iff hs a).mp) ok_mkfsLog
  · exact RunMeets.of_inv (I := Ops.Ok) (fun _ _ _ hs _ h => ok_opStep hs h)
      (fun s a hs => (notTooBig_iff hs a).mpr) ok_mkfsLog

/-- Three operations, admitted together, that log ten blocks each. -/
def threeOps : List (OpAct ℕ) :=
  [.begin 0, .begin 1, .begin 2] ++ (List.range 30).map fun i => .write (i / 10) i

theorem threeOps_tooBig :
    ∃ s, run opStep (mkfsLog : Ops ℕ) threeOps = some s ∧ s.panic = some .tooBig :=
  ⟨_, rfl, rfl⟩

end TatakOS.Logging
