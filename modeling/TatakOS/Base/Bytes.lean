import Mathlib.Data.List.Basic
import Mathlib.Data.Nat.Basic
import Mathlib.Tactic.NormNum
import Mathlib.Tactic.Ring

/-!
# Words in memory

A piece of memory is a function from offsets to bytes. `get` and `set` read and write a
little-endian word; a read sees the last write to its offset, and no write to others.
-/

namespace TatakOS

/-- Memory, as bytes at offsets. -/
abbrev Bytes := ℕ → UInt8

namespace Bytes

/-- The little-endian number in the `w` bytes from offset `o`. -/
def get (d : Bytes) (o : ℕ) : ℕ → ℕ
  | 0 => 0
  | w + 1 => (d o).toNat + 256 * get d (o + 1) w

/-- Store the low `w` bytes of `v` at offset `o`. -/
def set (d : Bytes) (o w v : ℕ) : Bytes := fun i =>
  if o ≤ i ∧ i < o + w then UInt8.ofNat (v / 256 ^ (i - o)) else d i

variable {d d' : Bytes} {o o' w w' v : ℕ}

theorem set_of_not_mem {i : ℕ} (h : ¬ (o ≤ i ∧ i < o + w)) : set d o w v i = d i := by
  simp [set, h]

theorem get_congr (h : ∀ i, o ≤ i → i < o + w → d i = d' i) : get d o w = get d' o w := by
  induction w generalizing o with
  | zero => rfl
  | succ w ih =>
    unfold get
    rw [h o le_rfl (by omega), ih fun i hi hi' => h i (by omega) (by omega)]

theorem get_lt : get d o w < 256 ^ w := by
  induction w generalizing o with
  | zero => simp [get]
  | succ w ih =>
    unfold get
    have h := ih (o := o + 1)
    have := (d o).toNat_lt
    rw [pow_succ]
    omega

theorem get_set_of_disjoint (h : o' + w' ≤ o ∨ o + w ≤ o') :
    get (set d o w v) o' w' = get d o' w' :=
  get_congr fun _ _ _ => set_of_not_mem (by omega)

theorem get_set_aux (k : ℕ) (hk : k ≤ w) :
    get (set d o w v) (o + k) (w - k) = v / 256 ^ k % 256 ^ (w - k) := by
  induction hn : w - k generalizing k with
  | zero => simp [get, Nat.mod_one]
  | succ n ih =>
    have hb : (set d o w v (o + k)).toNat = v / 256 ^ k % 256 := by
      have hin : o ≤ o + k ∧ o + k < o + w := by omega
      simp [set, hin]
    unfold get
    rw [hb, show o + k + 1 = o + (k + 1) by omega, ih (k + 1) (by omega) (by omega), pow_succ,
      pow_succ, ← Nat.div_div_eq_div_mul, Nat.mul_comm (256 ^ n), Nat.mod_mul]

theorem get_set_same : get (set d o w v) o w = v % 256 ^ w := by
  simpa using get_set_aux (d := d) (o := o) (w := w) (v := v) 0 (Nat.zero_le _)

theorem set_of_lt (h : o' < o ∨ o + w ≤ o') : set d o w v o' = d o' := set_of_not_mem (by omega)

/-- `memset`. -/
def fill (d : Bytes) (o n : ℕ) (v : UInt8) : Bytes := fun i => if o ≤ i ∧ i < o + n then v else d i

/-- `memmove`. -/
def move (d : Bytes) (dst src n : ℕ) : Bytes := fun i =>
  if dst ≤ i ∧ i < dst + n then d (src + (i - dst)) else d i

@[simp] theorem move_zero {dst src : ℕ} : move d dst src 0 = d := by
  funext i
  simp [move, show ¬ (dst ≤ i ∧ i < dst) by omega]

/-- Store bytes from offset `o` on. -/
def blit (d : Bytes) (o : ℕ) (l : List UInt8) : Bytes := fun i =>
  if o ≤ i ∧ i < o + l.length then l.getD (i - o) 0 else d i

/-- The bytes from offset `o` on. -/
def slice (d : Bytes) (o n : ℕ) : List UInt8 := (List.range n).map fun i => d (o + i)

theorem get_zero : get (fun _ => 0) o w = 0 := by
  induction w generalizing o with
  | zero => rfl
  | succ w ih =>
    unfold get
    rw [ih]
    rfl

theorem get_fill_zero (h : o ≤ o' ∧ o' + w ≤ o + w') : get (fill d o w' 0) o' w = 0 := by
  induction w generalizing o' with
  | zero => rfl
  | succ w ih =>
    unfold get
    rw [ih (by omega)]
    simp [fill, show o ≤ o' ∧ o' < o + w' by omega]

end Bytes

end TatakOS
