import Mathlib.Data.List.Range
import Mathlib.Logic.Function.Basic

/-!
# Maps in slots

A finite map is kept in a row of `n` slots, each empty or with a key and a value. Keys are looked up
by going through the slots; a new key goes into an empty slot or behind the last one.
-/

namespace TatakOS

open Function

variable {κ β : Type*} {e : ℕ → Option (κ × β)} {n k : ℕ} {m : κ → Option (ℕ × β)} {key : κ} {b : β}

/-- The slots hold the map `m`, which says for each key where it is and what its value is. -/
def IsMap (e : ℕ → Option (κ × β)) (n : ℕ) (m : κ → Option (ℕ × β)) : Prop :=
  ∀ key k b, m key = some (k, b) ↔ k < n ∧ e k = some (key, b)

theorem IsMap.unique (h : IsMap e n m) {k' : ℕ} {b' : β} (hk : k < n) (hk' : k' < n)
    (he : e k = some (key, b)) (he' : e k' = some (key, b')) : k = k' := by
  have h1 := (h key k b).mpr ⟨hk, he⟩
  have h2 := (h key k' b').mpr ⟨hk', he'⟩
  rw [h1] at h2
  exact congrArg Prod.fst (Option.some.inj h2)

theorem isMap_empty (e : ℕ → Option (κ × β)) : IsMap e 0 fun _ => none := by
  intro key k b
  simp

theorem IsMap.put [DecidableEq κ] (h : IsMap e n m) (hnew : m key = none) (hk : k ≤ n)
    (hfree : k < n → e k = none) (b : β) :
    IsMap (update e k (some (key, b))) (max n (k + 1))
      (update m key (some (k, b))) := by
  intro key' j c
  by_cases hkey : key' = key
  · subst hkey
    rw [update_self]
    constructor
    · intro hj
      cases hj
      exact ⟨by omega, update_self ..⟩
    · rintro ⟨hj, he⟩
      by_cases ejk : j = k
      · subst ejk
        rw [update_self] at he
        cases he
        rfl
      · rw [update_of_ne ejk] at he
        have := (h key' j c).mpr ⟨by omega, he⟩
        rw [hnew] at this
        cases this
  · rw [update_of_ne hkey, h key' j c]
    by_cases ejk : j = k
    · subst ejk
      rw [update_self]
      constructor
      · rintro ⟨hj, he⟩
        rw [hfree hj] at he
        cases he
      · rintro ⟨-, he⟩
        cases he
        exact absurd rfl hkey
    · rw [update_of_ne ejk]
      refine and_congr_left fun _ => ?_
      omega

theorem IsMap.erase [DecidableEq κ] (h : IsMap e n m) (hold : m key = some (k, b)) :
    IsMap (update e k none) n (update m key none) := by
  obtain ⟨hk, hek⟩ := (h key k b).mp hold
  intro key' j c
  by_cases hkey : key' = key
  · subst hkey
    rw [update_self]
    constructor
    · nofun
    · rintro ⟨hj, he⟩
      by_cases ejk : j = k
      · subst ejk
        rw [update_self] at he
        cases he
      · rw [update_of_ne ejk] at he
        exact absurd (h.unique hj hk he hek) ejk
  · rw [update_of_ne hkey, h key' j c]
    refine and_congr_right fun _ => ?_
    by_cases ejk : j = k
    · subst ejk
      rw [update_self, hek]
      constructor
      · intro he
        cases he
        exact absurd rfl hkey
      · nofun
    · rw [update_of_ne ejk]

/-- Going through the slots finds the key where the map has it. -/
theorem IsMap.find (h : IsMap e n m) (key : κ) {p : ℕ → Bool}
    (hp : ∀ j < n, p j = true ↔ ∃ b, e j = some (key, b)) :
    (List.range n).find? p = (m key).map Prod.fst := by
  cases hm : m key with
  | none =>
    rw [Option.map_none, List.find?_eq_none]
    intro j hj hpj
    obtain ⟨b, hb⟩ := (hp j (List.mem_range.mp hj)).mp hpj
    rw [(h key j b).mpr ⟨List.mem_range.mp hj, hb⟩] at hm
    cases hm
  | some x =>
    obtain ⟨k, b⟩ := x
    obtain ⟨hk, hek⟩ := (h key k b).mp hm
    rw [Option.map_some, List.find?_range_eq_some]
    refine ⟨(hp k hk).mpr ⟨b, hek⟩, List.mem_range.mpr hk, fun j hj => ?_⟩
    rw [Bool.not_eq_true', ← Bool.not_eq_true]
    intro hpj
    obtain ⟨c, hc⟩ := (hp j (hj.trans hk)).mp hpj
    exact absurd (h.unique (hj.trans hk) hk hc hek) (Nat.ne_of_lt hj)

end TatakOS
