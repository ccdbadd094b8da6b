import Mathlib.Logic.Function.Basic
import TatakOS.Base.Bytes

/-!
# `memmove`

The function of the kernel and the one of the user library, with their loops over pointers. Both
copy bytes up or down; each direction is right where it reads a byte before it is overwritten, and
the tests of the two functions choose such a direction.
-/

namespace TatakOS

open Function

/-! ## The source -/

/-- `while(n-- > 0) *d++ = *s++;` -/
def copyUp : ℕ → UInt64 → UInt64 → Bytes → Bytes
  | 0, _, _, m => m
  | n + 1, d, s, m => copyUp n (d + 1) (s + 1) (update m d.toNat (m s.toNat))

/-- `while(n-- > 0) *--d = *--s;` -/
def copyDown : ℕ → UInt64 → UInt64 → Bytes → Bytes
  | 0, _, _, m => m
  | n + 1, d, s, m => copyDown n (d - 1) (s - 1) (update m (d - 1).toNat (m (s - 1).toNat))

/-- `memmove` of the kernel: what it returns and the memory that it leaves. -/
def Kernel.memmove (m : Bytes) (dst src : UInt64) (n : UInt32) : UInt64 × Bytes :=
  if n = 0 then (dst, m)
  else if src < dst ∧ src + n.toUInt64 > dst then
    (dst, copyDown n.toNat (dst + n.toUInt64) (src + n.toUInt64) m)
  else (dst, copyUp n.toNat dst src m)

/-- `memmove` of the user library; a negative `n` moves the pointers and copies nothing. -/
def User.memmove (m : Bytes) (vdst vsrc : UInt64) (n : Int32) : UInt64 × Bytes :=
  if vsrc > vdst then (vdst, copyUp n.toInt.toNat vdst vsrc m)
  else
    (vdst, copyDown n.toInt.toNat (vdst + UInt64.ofInt n.toInt) (vsrc + UInt64.ofInt n.toInt) m)

/-! ## The loops -/

variable {m : Bytes} {d s n : ℕ}

/-- Upwards, nothing is overwritten before it is read if the destination begins first. -/
theorem copyUp_eq (hd : d + n ≤ 2 ^ 64) (hs : s + n ≤ 2 ^ 64) (h : d ≤ s ∨ s + n ≤ d) :
    copyUp n (.ofNat d) (.ofNat s) m = m.move d s n := by
  induction n generalizing d s m with
  | zero => simp [copyUp]
  | succ n ih =>
    have hstep : ∀ p, UInt64.ofNat p + 1 = .ofNat (p + 1) := fun p => by simp [UInt64.ofNat_add]
    rw [copyUp, hstep, hstep, ih (by omega) (by omega) (by omega)]
    simp only [UInt64.toNat_ofNat', Nat.mod_eq_of_lt (show d < 2 ^ 64 by omega),
      Nat.mod_eq_of_lt (show s < 2 ^ 64 by omega)]
    funext a
    simp only [Bytes.move, update_apply]
    grind

/-- Downwards, if the source begins first. -/
theorem copyDown_eq (hd : d + n ≤ 2 ^ 64) (hs : s + n ≤ 2 ^ 64) (h : s ≤ d ∨ d + n ≤ s) :
    copyDown n (.ofNat (d + n)) (.ofNat (s + n)) m = m.move d s n := by
  induction n generalizing m with
  | zero => simp [copyDown]
  | succ n ih =>
    have hstep : ∀ p, UInt64.ofNat (p + (n + 1)) - 1 = .ofNat (p + n) := fun p => by
      simp [← Nat.add_assoc, UInt64.ofNat_add]
    rw [copyDown, hstep, hstep, ih (by omega) (by omega) (by omega)]
    simp only [UInt64.toNat_ofNat', Nat.mod_eq_of_lt (show d + n < 2 ^ 64 by omega),
      Nat.mod_eq_of_lt (show s + n < 2 ^ 64 by omega)]
    funext a
    simp only [Bytes.move, update_apply]
    grind

/-! ## The functions -/

theorem Kernel.memmove_eq {dst src : UInt64} {n : UInt32} (hd : dst.toNat + n.toNat ≤ 2 ^ 64)
    (hs : src.toNat + n.toNat ≤ 2 ^ 64) :
    Kernel.memmove m dst src n = (dst, m.move dst.toNat src.toNat n.toNat) := by
  have hadd : ∀ p : UInt64, p + n.toUInt64 = .ofNat (p.toNat + n.toNat) := fun p => by
    simp [UInt64.ofNat_add]
  unfold Kernel.memmove
  split_ifs with h0 htest
  · simp [h0]
  · have := UInt64.lt_iff_toNat_lt.mp htest.1
    rw [hadd, hadd, copyDown_eq hd hs (by omega)]
  · -- where the test fails, the end of the source is the sum itself, unless it is the last address
    have hout : dst.toNat ≤ src.toNat ∨ src.toNat + n.toNat ≤ dst.toNat := by
      simp only [not_and, gt_iff_lt, UInt64.lt_iff_toNat_lt, hadd, UInt64.toNat_ofNat'] at htest
      omega
    simpa using copyUp_eq (m := m) hd hs hout

theorem User.memmove_eq {dst src : UInt64} {n : Int32} (hn : 0 ≤ n)
    (hd : dst.toNat + n.toInt.toNat ≤ 2 ^ 64) (hs : src.toNat + n.toInt.toNat ≤ 2 ^ 64) :
    User.memmove m dst src n = (dst, m.move dst.toNat src.toNat n.toInt.toNat) := by
  obtain ⟨k, hk⟩ := Int.eq_ofNat_of_zero_le (Int32.le_iff_toInt_le.mp hn)
  have hadd : ∀ p : UInt64, p + UInt64.ofInt n.toInt = .ofNat (p.toNat + n.toInt.toNat) :=
    fun p => by
      have hmod : ((k : ℤ) % 2 ^ 64).toNat = k % 2 ^ 64 := by omega
      rw [hk, UInt64.ofInt, hmod, UInt64.ofNat_mod_size]
      simp [UInt64.ofNat_add]
  unfold User.memmove
  split_ifs with htest
  · have := UInt64.lt_iff_toNat_lt.mp htest
    simpa using copyUp_eq (m := m) hd hs (by omega)
  · have : src.toNat ≤ dst.toNat := by
      rwa [gt_iff_lt, UInt64.lt_iff_toNat_lt, not_lt] at htest
    rw [hadd, hadd, copyDown_eq hd hs (.inl this)]

/-- What `memmove` is for: the bytes of the source are now at the destination, and no other byte
has changed. -/
def Moved (m m' : Bytes) (dst src n : ℕ) : Prop :=
  (∀ i < n, m' (dst + i) = m (src + i)) ∧ ∀ a, ¬ (dst ≤ a ∧ a < dst + n) → m' a = m a

theorem moved_move (m : Bytes) (d s n : ℕ) : Moved m (m.move d s n) d s n := by
  refine ⟨fun i hi => ?_, fun a ha => if_neg ha⟩
  simp [Bytes.move, hi]

/-- Both functions are right for every overlap, and so they agree. -/
theorem memmove_correct (m : Bytes) (dst src : UInt64) :
    (∀ n : UInt32, dst.toNat + n.toNat ≤ 2 ^ 64 → src.toNat + n.toNat ≤ 2 ^ 64 →
      Moved m (Kernel.memmove m dst src n).2 dst.toNat src.toNat n.toNat) ∧
    (∀ n : Int32, 0 ≤ n → dst.toNat + n.toInt.toNat ≤ 2 ^ 64 → src.toNat + n.toInt.toNat ≤ 2 ^ 64 →
      Moved m (User.memmove m dst src n).2 dst.toNat src.toNat n.toInt.toNat) ∧
    ∀ (n : UInt32) (k : Int32), k.toInt = n.toNat → dst.toNat + n.toNat ≤ 2 ^ 64 →
      src.toNat + n.toNat ≤ 2 ^ 64 → Kernel.memmove m dst src n = User.memmove m dst src k := by
  refine ⟨fun n hd hs => ?_, fun n hn hd hs => ?_, fun n k hk hd hs => ?_⟩
  · rw [Kernel.memmove_eq hd hs]
    exact moved_move m _ _ _
  · rw [User.memmove_eq hn hd hs]
    exact moved_move m _ _ _
  · have hk' : k.toInt.toNat = n.toNat := by omega
    have hn : 0 ≤ k := by
      rw [Int32.le_iff_toInt_le, hk]
      exact Int.natCast_nonneg _
    rw [Kernel.memmove_eq hd hs, User.memmove_eq hn (by omega) (by omega), hk']

/-- Three bytes, moved up by one over themselves: the direction matters. -/
theorem memmove_correct_overlap :
    Moved (fun a => .ofNat a) (Kernel.memmove (fun a => .ofNat a) 11 10 3).2 11 10 3 ∧
      Moved (fun a => .ofNat a) (User.memmove (fun a => .ofNat a) 11 10 3).2 11 10 3 ∧
      Kernel.memmove (fun a => .ofNat a) 11 10 3 = User.memmove (fun a => .ofNat a) 11 10 3 := by
  obtain ⟨hk, hu, he⟩ := memmove_correct (fun a => .ofNat a) 11 10
  exact ⟨hk 3 (by decide) (by decide), hu 3 (by decide) (by decide) (by decide),
    he 3 3 (by decide) (by decide) (by decide)⟩

end TatakOS
