import Mathlib.Data.List.Range
import TatakOS.Base.Bytes
import TatakOS.Log.Basic

/-!
# The header block of the log

`struct logheader` is the count `n` and the block numbers, 32-bit words one after the other. What
`write_head` stores into a block, `read_head` gets back from it (`getHead_putHead`).
-/

namespace TatakOS.Logging

/-- Store words one after the other from offset `o` on. -/
def putWords (d : Bytes) (o : ℕ) : List ℕ → Bytes
  | [] => d
  | b :: bs => putWords (d.set o 4 b) (o + 4) bs

/-- `write_head` on the data of the header block. -/
def putHead (lh : List ℕ) (d : Bytes) : Bytes := putWords (d.set 0 4 lh.length) 4 lh

/-- `read_head`: `log.lh` after it. A negative `n` copies nothing; `none` is an `n` for which the
copy runs over the end of `log.lh.block`. -/
def getHead (d : Bytes) : Option (List ℕ) :=
  let n := d.get 0 4
  if 2 ^ 31 ≤ n then some []
  else if n ≤ LOGSIZE then some ((List.range n).map fun i => d.get (4 + 4 * i) 4)
  else none

variable {d : Bytes} {lh : List ℕ} {o o' : ℕ}

theorem get_putWords_of_le (h : o' + 4 ≤ o) : (putWords d o lh).get o' 4 = d.get o' 4 := by
  induction lh generalizing d o with
  | nil => rfl
  | cons b bs ih =>
    unfold putWords
    rw [ih (by omega), Bytes.get_set_of_disjoint (.inl h)]

theorem get_putWords (hw : ∀ b ∈ lh, b < 2 ^ 32) {i : ℕ} (hi : i < lh.length) :
    (putWords d o lh).get (o + 4 * i) 4 = lh[i] := by
  induction lh generalizing d o i with
  | nil => simp at hi
  | cons b bs ih =>
    unfold putWords
    cases i with
    | zero =>
      have hb : b < 2 ^ 32 := hw b (by simp)
      rw [show o + 4 * 0 = o by omega, get_putWords_of_le le_rfl, Bytes.get_set_same]
      exact Nat.mod_eq_of_lt hb
    | succ i =>
      rw [show o + 4 * (i + 1) = o + 4 + 4 * i by omega]
      exact ih (fun b hb => hw b (by simp [hb])) (by simpa using hi)

theorem getHead_putHead (hn : lh.length ≤ LOGSIZE) (hw : ∀ b ∈ lh, b < 2 ^ 32) :
    getHead (putHead lh d) = some lh := by
  have hlen : (putHead lh d).get 0 4 = lh.length := by
    have hlt : lh.length < 256 ^ 4 := lt_of_le_of_lt hn (by decide)
    unfold putHead
    rw [get_putWords_of_le (by omega), Bytes.get_set_same, Nat.mod_eq_of_lt hlt]
  have hsmall : ¬ 2 ^ 31 ≤ lh.length := by
    have : LOGSIZE < 2 ^ 31 := by decide
    omega
  unfold getHead
  simp only [hlen, if_neg hsmall, if_pos hn]
  congr 1
  refine List.ext_getElem (by simp) fun i h1 h2 => ?_
  simp only [List.getElem_map, List.getElem_range]
  exact get_putWords hw h2

end TatakOS.Logging
