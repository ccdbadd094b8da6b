import Mathlib.Algebra.BigOperators.Pi
import Mathlib.Algebra.BigOperators.Group.Finset.Basic
import Mathlib.Data.Fintype.BigOperators
import Mathlib.Tactic.Ring

/-!
# Weights over a table

Every entry of a finite table has a weight. Changing one entry changes the sum by the difference of
its weights.
-/

namespace TatakOS

open Function
open Finset

variable {ι β : Type*} [Fintype ι] [DecidableEq ι]

theorem sum_update (w : β → ℤ) (h : ι → β) (i : ι) (v : β) :
    ∑ j, w (update h i v j) = ∑ j, w (h j) + (w v - w (h i)) := by
  have hcomp : (fun j => w (update h i v j)) = update (fun j => w (h j)) i (w v) := by
    funext j
    by_cases e : j = i
    · rw [e, update_self, update_self]
    · rw [update_of_ne e, update_of_ne e]
  rw [hcomp, sum_update_of_mem (mem_univ i), ← add_sum_erase univ (fun j => w (h j)) (mem_univ i),
    sdiff_singleton_eq_erase]
  ring

/-- The weight 1 at one place. -/
def one (i : ι) : ι → ℤ := fun j => if j = i then 1 else 0

omit [Fintype ι] in
theorem one_self (i : ι) : one i i = 1 := if_pos rfl

omit [Fintype ι] in
theorem one_of_ne {i j : ι} (h : j ≠ i) : one i j = 0 := if_neg h

end TatakOS
