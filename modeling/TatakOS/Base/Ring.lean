import Mathlib.Data.List.Nodup
import Mathlib.Data.List.Range
import Mathlib.Data.Nat.ModEq
import Mathlib.Data.Finset.Card
import Mathlib.Data.Finset.Range
import Mathlib.Logic.Function.Basic

/-!
# Queues in rings

A queue is kept in a ring of `N` cells. Counters that run modulo `M` say where it begins and ends,
and a counter is taken modulo `N` to find a cell. Counters may wrap around: all that is needed is
that `N` divides `M`.
-/

namespace TatakOS

variable {α : Type*} {M N lo hi k : ℕ} {ring : ℕ → α} {q : List α} {x : α}

/-- The queue `q` is in the ring, from counter `lo` up to counter `hi`. -/
structure RingQueue (M N : ℕ) (ring : ℕ → α) (lo hi : ℕ) (q : List α) : Prop where
  hi_eq : hi = (lo + q.length) % M
  lo_lt : lo < M
  cell : ∀ k x, q[k]? = some x → ring ((lo + k) % N) = x

theorem RingQueue.nil (h : lo < M) : RingQueue M N ring lo lo [] where
  hi_eq := (Nat.mod_eq_of_lt h).symm
  lo_lt := h
  cell k x hk := by simp at hk

theorem RingQueue.hi_mod (h : RingQueue M N ring lo hi q) (hN : N ∣ M) : hi % N = (lo + q.length) % N := by
  rw [h.hi_eq, Nat.mod_mod_of_dvd _ hN]

theorem add_mod_ne (hk : k < q.length) (hq : q.length < N) :
    (lo + k) % N ≠ (lo + q.length) % N := by
  intro h
  have h1 : k ≡ q.length [MOD N] := Nat.ModEq.add_left_cancel' lo h
  have h2 := Nat.ModEq.eq_of_lt_of_lt h1 (hk.trans hq) hq
  omega

theorem RingQueue.store (h : RingQueue M N ring lo hi q) (hN : N ∣ M) (hq : q.length < N) (x : α) :
    RingQueue M N (Function.update ring (hi % N) x) lo hi q where
  hi_eq := h.hi_eq
  lo_lt := h.lo_lt
  cell k y hk := by
    have hlt : k < q.length := (List.getElem?_eq_some_iff.mp hk).1
    rw [h.hi_mod hN, Function.update_of_ne (add_mod_ne hlt hq)]
    exact h.cell k y hk

theorem RingQueue.push (h : RingQueue M N ring lo hi q) (hN : N ∣ M) :
    RingQueue M N ring lo ((hi + 1) % M) (q ++ [ring (hi % N)]) where
  hi_eq := by
    rw [h.hi_eq, List.length_append, List.length_singleton, Nat.mod_add_mod, Nat.add_assoc]
  lo_lt := h.lo_lt
  cell k y hk := by
    by_cases hlt : k < q.length
    · rw [List.getElem?_append_left hlt] at hk
      exact h.cell k y hk
    · rw [List.getElem?_append_right (by omega)] at hk
      have hk0 : k - q.length = 0 := by
        by_contra hne
        rw [List.getElem?_eq_none (by simp; omega)] at hk
        cases hk
      rw [hk0, List.getElem?_cons_zero] at hk
      cases hk
      rw [h.hi_mod hN, show k = q.length by omega]

theorem RingQueue.head_eq (h : RingQueue M N ring lo hi (x :: q)) : ring (lo % N) = x :=
  h.cell 0 x rfl

theorem RingQueue.pop (h : RingQueue M N ring lo hi (x :: q)) (hN : N ∣ M) :
    RingQueue M N ring ((lo + 1) % M) hi q where
  hi_eq := by
    rw [h.hi_eq, List.length_cons, Nat.mod_add_mod]
    congr 1
    omega
  lo_lt := Nat.mod_lt _ (h.lo_lt.trans_le' (Nat.zero_le _))
  cell k y hk := by
    have := h.cell (k + 1) y (by rwa [List.getElem?_cons_succ])
    rw [← Nat.mod_add_mod, Nat.mod_mod_of_dvd _ hN, Nat.mod_add_mod]
    rwa [show lo + 1 + k = lo + (k + 1) by omega]

section

variable (h : RingQueue M N ring lo hi q)
include h

/-- The counters are equal exactly if the queue is empty. -/
theorem RingQueue.lo_eq_hi_iff (hq : q.length < M) : lo = hi ↔ q = [] := by
  constructor
  · intro heq
    have hmod : lo + 0 ≡ lo + q.length [MOD M] := by
      unfold Nat.ModEq
      rw [← h.hi_eq, ← heq, Nat.add_zero, Nat.mod_eq_of_lt h.lo_lt]
    have h0 := Nat.ModEq.eq_of_lt_of_lt (Nat.ModEq.add_left_cancel' lo hmod) (by omega) hq
    exact List.eq_nil_of_length_eq_zero h0.symm
  · rintro rfl
    rw [h.hi_eq, List.length_nil, Nat.add_zero, Nat.mod_eq_of_lt h.lo_lt]

/-- The difference of the counters is the length of the queue. -/
theorem RingQueue.length_eq (hq : q.length < M) : (hi + M - lo) % M = q.length := by
  have hlo := h.lo_lt
  rw [h.hi_eq]
  by_cases hlt : lo + q.length < M
  · rw [Nat.mod_eq_of_lt hlt, show lo + q.length + M - lo = q.length + M by omega, Nat.add_mod_right,
      Nat.mod_eq_of_lt hq]
  · have hmod : (lo + q.length) % M = lo + q.length - M := by
      rw [Nat.mod_eq_sub_mod (by omega), Nat.mod_eq_of_lt (by omega)]
    rw [hmod, show lo + q.length - M + M - lo = q.length by omega, Nat.mod_eq_of_lt hq]

/-- The queue is what the ring shows between the counters. -/
theorem RingQueue.eq_map : q = (List.range q.length).map fun k => ring ((lo + k) % N) := by
  apply List.ext_getElem?
  intro k
  by_cases hk : k < q.length
  · rw [List.getElem?_map, List.getElem?_range hk, List.getElem?_eq_getElem hk, Option.map_some,
      h.cell k _ (List.getElem?_eq_getElem hk)]
  · rw [List.getElem?_eq_none (by omega), List.getElem?_eq_none (by simpa using hk)]

/-- The counters are a whole round of `B` apart exactly if the queue has `B` elements. -/
theorem RingQueue.hi_eq_add_iff {B : ℕ} (hq : q.length < M) (hB : B < M) :
    hi = (lo + B) % M ↔ q.length = B := by
  rw [h.hi_eq]
  constructor
  · intro heq
    exact Nat.ModEq.eq_of_lt_of_lt (Nat.ModEq.add_left_cancel' lo heq) hq hB
  · intro heq
    rw [heq]

end

theorem ringQueue_append (hN : N ∣ M) {l : List α} : RingQueue M N ring lo hi (q ++ l) ↔
    ∃ mid, RingQueue M N ring lo mid q ∧ RingQueue M N ring mid hi l := by
  have hcell : ∀ k, ((lo + q.length) % M + k) % N = (lo + (q.length + k)) % N := by
    intro k
    rw [← Nat.mod_add_mod, Nat.mod_mod_of_dvd _ hN, Nat.mod_add_mod, Nat.add_assoc]
  constructor
  · intro h
    have hM : 0 < M := h.lo_lt.trans_le' (Nat.zero_le _)
    refine ⟨_, ⟨rfl, h.lo_lt, fun k x hk => ?_⟩, ?_, Nat.mod_lt _ hM, fun k x hk => ?_⟩
    · refine h.cell k x ?_
      rwa [List.getElem?_append_left (List.getElem?_eq_some_iff.mp hk).1]
    · rw [h.hi_eq, List.length_append, Nat.mod_add_mod, Nat.add_assoc]
    · rw [hcell]
      refine h.cell _ x ?_
      rwa [List.getElem?_append_right (by omega), Nat.add_sub_cancel_left]
  · rintro ⟨mid, h1, h2⟩
    refine ⟨?_, h1.lo_lt, fun k x hk => ?_⟩
    · rw [h2.hi_eq, h1.hi_eq, List.length_append, Nat.mod_add_mod, Nat.add_assoc]
    · by_cases hlt : k < q.length
      · rw [List.getElem?_append_left hlt] at hk
        exact h1.cell k x hk
      · rw [List.getElem?_append_right (by omega)] at hk
        have := h2.cell _ x hk
        rwa [h1.hi_eq, hcell, show q.length + (k - q.length) = k by omega] at this

theorem toNat_succ_sub (x : UInt32) : (x + 1 - x).toNat = 1 := by
  rw [UInt32.toNat_sub, UInt32.toNat_add]
  have := x.toNat_lt
  have h1 : (1 : UInt32).toNat = 1 := rfl
  omega

theorem length_le_of_nodup {l : List ℕ} {n : ℕ} (hl : l.Nodup) (h : ∀ x ∈ l, x < n) :
    l.length ≤ n := by
  rw [← List.toFinset_card_of_nodup hl, ← Finset.card_range n]
  refine Finset.card_le_card fun x hx => ?_
  exact Finset.mem_range.mpr (h x (List.mem_toFinset.mp hx))

end TatakOS
