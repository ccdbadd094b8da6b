import Mathlib.Data.List.Basic
import Mathlib.Data.List.Nodup

/-!
# `struct log`

The in-memory log: which blocks the current group of operations has logged, how many operations
are in progress, and whether a commit is. `beginOp`, `endOp` and `logWrite` are what the functions
of the same names do to it while they hold `log.lock`.
-/

namespace TatakOS.Logging

def MAXOPBLOCKS : ℕ := 10
def LOGSIZE : ℕ := MAXOPBLOCKS * 3

structure Log where
  /-- `log.size`, which `initlog` takes from `sb.nlog`. -/
  size : ℕ
  outstanding : ℕ := 0
  committing : Bool := false
  /-- `log.lh.block[0 .. log.lh.n)`. -/
  lh : List ℕ := []
  deriving DecidableEq, Repr

inductive Panic
  | tooBig        -- "too big a transaction"
  | outside       -- "log_write outside of trans"
  | committing    -- "log.committing"
  deriving DecidableEq, Repr

/-- One round of the loop of `begin_op`; `none` is `sleep(&log, &log.lock)`. -/
def beginOp (l : Log) : Option Log :=
  if l.committing then none
  else if l.lh.length + (l.outstanding + 1) * MAXOPBLOCKS > LOGSIZE then none
  else some { l with outstanding := l.outstanding + 1 }

/-- `end_op` up to the call of `commit`; `do_commit` says whether there is one. -/
def endOp (l : Log) : Except Panic (Log × Bool) :=
  let l := { l with outstanding := l.outstanding - 1 }
  if l.committing then .error .committing
  else if l.outstanding = 0 then .ok ({ l with committing := true }, true)
  else .ok (l, false)

/-- `log_write` of block `b`; the flag says whether the block is new in the log and gets pinned.
Writing `log.lh.block[i] = b->blockno` over an equal entry changes nothing. -/
def logWrite (l : Log) (b : ℕ) : Except Panic (Log × Bool) :=
  if l.lh.length ≥ LOGSIZE ∨ l.lh.length ≥ l.size - 1 then .error .tooBig
  else if l.outstanding < 1 then .error .outside
  else if b ∈ l.lh then .ok (l, false)
  else .ok ({ l with lh := l.lh ++ [b] }, true)

variable {l l' : Log} {b : ℕ} {new : Bool}

theorem beginOp_eq_some (h : beginOp l = some l') :
    l.committing = false ∧ l' = { l with outstanding := l.outstanding + 1 } := by
  unfold beginOp at h
  split_ifs at h with h1 h2
  cases h
  exact ⟨by simpa using h1, rfl⟩

theorem endOp_eq_ok (h : endOp l = .ok (l', new)) :
    l.committing = false ∧ l'.size = l.size ∧ l'.lh = l.lh ∧
      l'.outstanding = l.outstanding - 1 ∧ l'.committing = new ∧
      (new = true ↔ l.outstanding - 1 = 0) := by
  simp only [endOp] at h
  split_ifs at h with h1 h2
  · cases h
    exact ⟨by simpa using h1, rfl, rfl, rfl, rfl, by simpa using h2⟩
  · cases h
    exact ⟨by simpa using h1, rfl, rfl, rfl, by simpa using h1, by simpa using h2⟩

theorem logWrite_eq_ok (h : logWrite l b = .ok (l', new)) :
    l.lh.length < LOGSIZE ∧ l.lh.length < l.size - 1 ∧ 0 < l.outstanding ∧
      (b ∈ l.lh ∧ l' = l ∧ new = false ∨
        b ∉ l.lh ∧ l' = { l with lh := l.lh ++ [b] } ∧ new = true) := by
  unfold logWrite at h
  split_ifs at h with h1 h2 h3
  · cases h
    exact ⟨by omega, by omega, by omega, .inl ⟨h3, rfl, rfl⟩⟩
  · cases h
    exact ⟨by omega, by omega, by omega, .inr ⟨h3, rfl, rfl⟩⟩

end TatakOS.Logging
