import Mathlib.Logic.Basic

/-!
# Pre- and postconditions

Imperative code is written in `Prog σ ε`: it reads and changes a state of type `σ` and may stop
with an error of type `ε`. `Spec m s Q E` says what happens when `m` is started in the state `s`:
it ends with a result and a state that meet `Q`, or it stops with an error that `E` allows. The
rules below take code apart, one construct at a time.
-/

namespace TatakOS

abbrev Prog (σ ε α : Type) := StateT σ (Except ε) α

variable {σ τ ε α β : Type}

def Spec (m : Prog σ ε α) (s : σ) (Q : α → σ → Prop) (E : ε → Prop) : Prop :=
  match m s with
  | .ok (a, s') => Q a s'
  | .error e => E e

variable {m : Prog σ ε α} {f : α → Prog σ ε β} {s s' : σ} {E E' : ε → Prop} {a : α}

section Rules

variable {Q Q' : α → σ → Prop} {R : β → σ → Prop}

@[simp] theorem spec_pure : Spec (pure a) s Q E ↔ Q a s := Iff.rfl

@[simp] theorem spec_throw {e : ε} : Spec (throw e) s Q E ↔ E e := Iff.rfl

@[simp] theorem spec_get {Q : σ → σ → Prop} : Spec (get : Prog σ ε σ) s Q E ↔ Q s s := Iff.rfl

@[simp] theorem spec_set {Q : PUnit → σ → Prop} : Spec (set s' : Prog σ ε PUnit) s Q E ↔ Q ⟨⟩ s' :=
  Iff.rfl

@[simp] theorem spec_modify {Q : PUnit → σ → Prop} {g : σ → σ} :
    Spec (modify g : Prog σ ε PUnit) s Q E ↔ Q ⟨⟩ (g s) := Iff.rfl

theorem spec_bind : Spec (m >>= f) s R E ↔ Spec m s (fun a s' => Spec (f a) s' R E) E := by
  unfold Spec
  show (match (m s >>= fun p => f p.1 p.2) with | .ok (a, s') => R a s' | .error e => E e) ↔ _
  cases m s with
  | ok p => rfl
  | error e => rfl

theorem spec_get_bind {f : σ → Prog σ ε β} : Spec (get >>= f) s R E ↔ Spec (f s) s R E := by
  rw [spec_bind, spec_get]

section

variable (h : Spec m s Q E)
include h

theorem Spec.mono (hQ : ∀ a s', Q a s' → Q' a s') (hE : ∀ e, E e → E' e) : Spec m s Q' E' := by
  unfold Spec at h ⊢
  cases hm : m s with
  | ok p =>
    rw [hm] at h
    exact hQ _ _ h
  | error e =>
    rw [hm] at h
    exact hE _ h

theorem Spec.imp (hQ : ∀ a s', Q a s' → Q' a s') : Spec m s Q' E :=
  h.mono hQ fun _ => id

theorem Spec.and (h' : Spec m s Q' E') : Spec m s (fun a s' => Q a s' ∧ Q' a s') E := by
  unfold Spec at *
  cases hm : m s with
  | ok p =>
    rw [hm] at h h'
    exact ⟨h, h'⟩
  | error e =>
    rw [hm] at h
    exact h

/-- Sequencing: what the first part guarantees is what the second may assume. -/
theorem Spec.bind (hf : ∀ a s', Q a s' → Spec (f a) s' R E) : Spec (m >>= f) s R E :=
  spec_bind.mpr (h.imp hf)

/-- What comes next may use how the first part ended. -/
theorem Spec.bind_of_ok (hf : ∀ a s', m s = .ok (a, s') → Q a s' → Spec (f a) s' R E) :
    Spec (m >>= f) s R E := by
  rw [spec_bind]
  unfold Spec at h ⊢
  cases hm : m s with
  | ok p =>
    rw [hm] at h
    exact hf _ _ hm h
  | error e =>
    rw [hm] at h
    exact h

theorem Spec.of_ok (hm : m s = .ok (a, s')) : Q a s' := by
  unfold Spec at h
  rwa [hm] at h

end

theorem Spec.exists_ok (h : Spec m s Q fun _ => False) : ∃ a s', m s = .ok (a, s') ∧ Q a s' := by
  unfold Spec at h
  cases hm : m s with
  | ok p =>
    rw [hm] at h
    exact ⟨p.1, p.2, rfl, h⟩
  | error e =>
    rw [hm] at h
    exact h.elim

theorem Spec.of_error {e : ε} (h : Spec m s Q E) (hm : m s = .error e) : E e := by
  unfold Spec at h
  rwa [hm] at h

theorem spec_of_eq_ok (hm : m s = .ok (a, s')) : Spec m s Q E ↔ Q a s' := by
  unfold Spec
  rw [hm]

end Rules

/-! ## What code leaves alone -/

/-- The code does not change what `g` reads. The instances take the code apart. -/
class Keeps (g : σ → τ) (m : Prog σ ε α) : Prop where
  spec : ∀ s, Spec m s (fun _ s' => g s' = g s) fun _ => True

section Keeps

variable {g : σ → τ}

instance keeps_pure : Keeps g (pure a : Prog σ ε α) := ⟨fun _ => spec_pure.mpr rfl⟩

instance keeps_throw {e : ε} : Keeps g (throw e : Prog σ ε α) := ⟨fun _ => spec_throw.mpr trivial⟩

instance keeps_get : Keeps g (get : Prog σ ε σ) := ⟨fun _ => spec_get.mpr rfl⟩

theorem keeps_modify {k : σ → σ} (h : ∀ s, g (k s) = g s) : Keeps g (modify k : Prog σ ε PUnit) :=
  ⟨fun s => spec_modify.mpr (h s)⟩

instance keeps_bind [hm : Keeps g m] [hf : ∀ a, Keeps g (f a)] : Keeps g (m >>= f) :=
  ⟨fun s => (hm.spec s).bind fun a s' e => ((hf a).spec s').imp fun _ _ e' => e'.trans e⟩

instance keeps_ite {c : Prop} [Decidable c] {m' : Prog σ ε α} [Keeps g m] [Keeps g m'] :
    Keeps g (if c then m else m') := by
  split <;> infer_instance

end Keeps

/-! ## Code on a part of the state -/

/-- Run code that works on the part of the state that `get` reads and `put` writes. -/
def zoom (get : σ → τ) (put : τ → σ → σ) (m : Prog τ ε α) : Prog σ ε α := fun s =>
  match m (get s) with
  | .ok (a, t) => .ok (a, put t s)
  | .error e => .error e

theorem spec_zoom {get : σ → τ} {put : τ → σ → σ} {m : Prog τ ε α} {Q : α → σ → Prop} :
    Spec (zoom get put m) s Q E ↔ Spec m (get s) (fun a t => Q a (put t s)) E := by
  unfold Spec zoom
  cases m (get s) with
  | ok p => rfl
  | error e => rfl

-- code is taken apart by the rules only: unfolding `Spec` would run it
attribute [irreducible] Spec

end TatakOS
