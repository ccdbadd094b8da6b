import Mathlib.Data.Nat.Basic
import Mathlib.Data.Option.Basic

/-!
# Loops and recursion with fuel

A function of the source that loops or calls itself is a Lean function with one more argument,
the fuel, and is `none` where the fuel runs out. `Returns f a` says that the function comes to an
end with the result `a`: from some amount of fuel on, more of it changes nothing.
-/

namespace TatakOS

variable {α β : Type*}

/-- With enough fuel the result is `a`. -/
def Returns (f : ℕ → Option α) (a : α) : Prop := ∃ n, ∀ k ≥ n, f k = some a

variable {f g : ℕ → Option α} {a b : α}

/-- One unit of fuel is spent on the way into the body. -/
theorem Returns.succ (hg : Returns g a) (h : ∀ k, f (k + 1) = g k) : Returns f a := by
  obtain ⟨n, hn⟩ := hg
  refine ⟨n + 1, fun k hk => ?_⟩
  obtain ⟨j, rfl⟩ : ∃ j, k = j + 1 := ⟨k - 1, by omega⟩
  rw [h, hn j (by omega)]

theorem Returns.const (h : ∀ k, f (k + 1) = some a) : Returns f a := by
  refine ⟨1, fun k hk => ?_⟩
  obtain ⟨j, rfl⟩ : ∃ j, k = j + 1 := ⟨k - 1, by omega⟩
  exact h j

theorem Returns.bind {F : α → ℕ → Option β} {c : β} (hf : Returns f a) (hF : Returns (F a) c) :
    Returns (fun k => (f k).bind fun x => F x k) c := by
  obtain ⟨n, hn⟩ := hf
  obtain ⟨n', hn'⟩ := hF
  refine ⟨max n n', fun k hk => ?_⟩
  have hk' : f k = some a := hn k (le_trans (le_max_left n n') hk)
  simp only [hk', Option.bind_some]
  exact hn' k (le_trans (le_max_right n n') hk)

end TatakOS
