import TatakOS.Base.Bytes

/-!
# NUL-terminated strings

`CString m p s` says that the characters of `s`, none of them NUL, stand in memory from `p` on and
are followed by a NUL.
-/

namespace TatakOS

/-- The string `s` stands at `p`. -/
def CString (m : Bytes) : ℕ → List UInt8 → Prop
  | p, [] => m p = 0
  | p, c :: s => m p = c ∧ c ≠ 0 ∧ CString m (p + 1) s

variable {m m' : Bytes} {p : ℕ} {c : UInt8} {s t : List UInt8}

@[simp] theorem cstring_nil : CString m p [] ↔ m p = 0 := Iff.rfl

@[simp] theorem cstring_cons :
    CString m p (c :: s) ↔ m p = c ∧ c ≠ 0 ∧ CString m (p + 1) s := Iff.rfl

theorem CString.append_right (h : CString m p (s ++ t)) : CString m (p + s.length) t := by
  induction s generalizing p with
  | nil => exact h
  | cons c s ih =>
    have := ih (cstring_cons.mp h).2.2
    rwa [List.length_cons, show p + (s.length + 1) = p + 1 + s.length by omega]

theorem cstring_iff : CString m p s ↔
    (∀ i (hi : i < s.length), m (p + i) = s[i] ∧ s[i] ≠ 0) ∧ m (p + s.length) = 0 := by
  induction s generalizing p with
  | nil => simp
  | cons c s ih =>
    simp only [cstring_cons, ih, List.length_cons, Nat.forall_lt_succ_left', List.getElem_cons_zero,
      List.getElem_cons_succ, Nat.add_zero, ← Nat.add_assoc, Nat.add_right_comm p 1, and_assoc]

theorem CString.congr (h : CString m p s) (hm : ∀ i ≤ s.length, m' (p + i) = m (p + i)) :
    CString m' p s := by
  rw [cstring_iff] at *
  exact ⟨fun i hi => hm i hi.le ▸ h.1 i hi, hm _ le_rfl ▸ h.2⟩

/-- A NUL that is stored over a character ends the string there. -/
theorem CString.cut (h : CString m p (s ++ c :: t)) :
    CString (Function.update m (p + s.length) 0) p s := by
  rw [cstring_iff] at *
  refine ⟨fun i hi => ?_, by simp⟩
  have hi' := h.1 i (by simp; omega)
  rw [Function.update_of_ne (by omega)]
  simpa [List.getElem_append_left hi] using hi'

theorem CString.slice (h : CString m p (s ++ t)) : m.slice p s.length = s := by
  refine List.ext_getElem (by simp [Bytes.slice]) fun i h1 h2 => ?_
  have := ((cstring_iff.mp h).1 i (by simp; omega)).1
  simpa [Bytes.slice, List.getElem_append_left h2] using this

end TatakOS
