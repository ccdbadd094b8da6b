import Mathlib.Data.List.Basic
import Mathlib.Data.Option.Basic

/-!
# Runs of a partial step function

A machine is a function `step : σ → α → Option σ`: in state `s` the action `a` leads to `step s a`,
or cannot be taken. `run` takes a list of actions, and `trace` records what happens on the way.
`RunMeets G` says that every step of a run is taken in a state and with an action that meet `G`.
-/

namespace TatakOS

variable {σ α : Type*} {step : σ → α → Option σ}

/-- Take the actions one after the other. -/
def run (step : σ → α → Option σ) : σ → List α → Option σ
  | s, [] => some s
  | s, a :: as => (step s a).bind fun t => run step t as

@[simp] theorem run_nil (s : σ) : run step s [] = some s := rfl

variable {as : List α} {a : α}

theorem run_cons_eq_some {s u : σ} :
    run step s (a :: as) = some u ↔ ∃ t, step s a = some t ∧ run step t as = some u := by
  simp [run, Option.bind_eq_some_iff]

theorem run_append (s : σ) (as bs : List α) :
    run step s (as ++ bs) = (run step s as).bind fun t => run step t bs := by
  induction as generalizing s with
  | nil => rfl
  | cons a as ih =>
    simp only [List.cons_append, run, ih]
    cases step s a <;> rfl

theorem run_snoc_eq_some {s u : σ} :
    run step s (as ++ [a]) = some u ↔ ∃ t, run step s as = some t ∧ step t a = some u := by
  rw [run_append, Option.bind_eq_some_iff]
  simp [run]

/-- What evaluation shows about a run on fixed input. -/
theorem exists_of_any {o : Option σ} {p : σ → Prop} [DecidablePred p]
    (h : o.any (fun s => decide (p s)) = true) : ∃ s, o = some s ∧ p s := by
  simpa [Option.any_eq_true] using h

/-- Every step of the run of `as` from `s` is taken where `G` holds. -/
def RunMeets (step : σ → α → Option σ) (G : σ → α → Prop) : σ → List α → Prop
  | _, [] => True
  | s, a :: as => G s a ∧ ∀ t, step s a = some t → RunMeets step G t as

variable {G : σ → α → Prop}

instance decidableRunMeets [∀ s, DecidablePred (G s)] :
    ∀ (s : σ) (as : List α), Decidable (RunMeets step G s as)
  | _, [] => isTrue trivial
  | s, a :: as =>
    haveI : Decidable (∀ t, step s a = some t → RunMeets step G t as) :=
      match step s a with
      | none => isTrue nofun
      | some t =>
        haveI := decidableRunMeets t as
        decidable_of_iff (RunMeets step G t as) (by simp)
    inferInstanceAs (Decidable (_ ∧ _))

theorem RunMeets.cons {s t : σ} (hG : G s a)
    (hs : step s a = some t) (h : RunMeets step G t as) : RunMeets step G s (a :: as) := by
  refine ⟨hG, fun u hu => ?_⟩
  rw [hs] at hu
  cases hu
  exact h

/-- A condition on the actions alone. -/
theorem RunMeets.of_forall :
    ∀ {as : List α} (s : σ), (∀ a ∈ as, ∀ s, G s a) → RunMeets step G s as := by
  intro as
  induction as with
  | nil => intros; trivial
  | cons a as ih =>
    intro s h
    exact ⟨h a List.mem_cons_self s, fun t _ => ih t fun b hb => h b (List.mem_cons_of_mem a hb)⟩

theorem RunMeets.and {G H : σ → α → Prop} :
    ∀ {as : List α} {s : σ}, RunMeets step G s as → RunMeets step H s as →
      RunMeets step (fun s a => G s a ∧ H s a) s as := by
  intro as
  induction as with
  | nil => intros; trivial
  | cons a as ih =>
    intro s hG hH
    exact ⟨⟨hG.1, hH.1⟩, fun t ht => ih (hG.2 t ht) (hH.2 t ht)⟩

variable {I : σ → Prop}

/-- The induction over a run: what every step preserves holds at the end. -/
theorem run_induct (hstep : ∀ s a t, I s → step s a = some t → I t) :
    ∀ {as : List α} {s u : σ}, I s → run step s as = some u → I u := by
  intro as
  induction as with
  | nil => rintro s u hs h; cases h; exact hs
  | cons a as ih =>
    intro s u hs h
    obtain ⟨t, ht, hu⟩ := run_cons_eq_some.mp h
    exact ih (hstep s a t hs ht) hu

/-- The same for runs whose steps all meet `G`. -/
theorem run_induct_of_meets (hstep : ∀ s a t, I s → G s a → step s a = some t → I t) :
    ∀ {as : List α} {s u : σ}, I s → RunMeets step G s as → run step s as = some u → I u := by
  intro as
  induction as with
  | nil => rintro s u hs - h; cases h; exact hs
  | cons a as ih =>
    intro s u hs hG h
    obtain ⟨t, ht, hu⟩ := run_cons_eq_some.mp h
    exact ih (hstep s a t hs hG.1 ht) (hG.2 t ht) hu

/-- What is recorded along a run: `event s a` for each step. -/
def trace {β : Type*} (step : σ → α → Option σ) (event : σ → α → List β) : σ → List α → List β
  | _, [] => []
  | s, a :: as => event s a ++ ((step s a).map fun t => trace step event t as).getD []

section Trace

variable {β : Type*} {event : σ → α → List β}

@[simp] theorem trace_nil (s : σ) : trace step event s [] = [] := rfl

theorem trace_cons {s t : σ} (h : step s a = some t) :
    trace step event s (a :: as) = event s a ++ trace step event t as := by
  rw [trace, h]
  rfl

/-- The induction over a run together with its record. -/
theorem run_trace_induct {I : List β → σ → Prop}
    (hstep : ∀ tr s a t, I tr s → step s a = some t → I (tr ++ event s a) t) :
    ∀ {as : List α} {tr : List β} {s u : σ}, I tr s → run step s as = some u →
      I (tr ++ trace step event s as) u := by
  intro as
  induction as with
  | nil =>
    rintro tr s u hs h
    cases h
    rwa [trace_nil, List.append_nil]
  | cons a as ih =>
    intro tr s u hs h
    obtain ⟨t, ht, hu⟩ := run_cons_eq_some.mp h
    rw [trace_cons ht, ← List.append_assoc]
    exact ih (hstep tr s a t hs ht) hu

end Trace

/-- If `G` at a step implies `H` there, as long as the invariant `I` holds and `G` preserves it,
then a run that meets `G` meets `H`. -/
theorem RunMeets.of_inv {G H : σ → α → Prop}
    (hstep : ∀ s a t, I s → G s a → step s a = some t → I t) (himp : ∀ s a, I s → G s a → H s a) :
    ∀ {as : List α} {s : σ}, I s → RunMeets step G s as → RunMeets step H s as := by
  intro as
  induction as with
  | nil => intros; trivial
  | cons a as ih =>
    intro s hs hG
    exact ⟨himp s a hs hG.1, fun t ht => ih (hstep s a t hs hG.1 ht) (hG.2 t ht)⟩

/-- Forward simulation: if every step is matched by steps of a second machine with the same visible
events, then so is every run. -/
theorem run_simulates {τ β γ : Type*} {step' : τ → β → Option τ} {R : σ → τ → Prop}
    {view : α → List γ} {view' : β → List γ}
    (hsim : ∀ s a u t, R s t → step s a = some u →
      ∃ bs v, run step' t bs = some v ∧ bs.flatMap view' = view a ∧ R u v) :
    ∀ {as : List α} {s u : σ} {t : τ}, R s t → run step s as = some u →
      ∃ bs v, run step' t bs = some v ∧ bs.flatMap view' = as.flatMap view ∧ R u v := by
  intro as
  induction as with
  | nil =>
    rintro s u t hR h
    cases h
    exact ⟨[], t, rfl, rfl, hR⟩
  | cons a as ih =>
    intro s u t hR h
    obtain ⟨w, hw, hu⟩ := run_cons_eq_some.mp h
    obtain ⟨bs, v, hv, hview, hR'⟩ := hsim s a w t hR hw
    obtain ⟨bs', v', hv', hview', hR''⟩ := ih hR' hu
    refine ⟨bs ++ bs', v', ?_, ?_, hR''⟩
    · rw [run_append, hv]
      exact hv'
    · rw [List.flatMap_append, hview, hview', List.flatMap_cons]

end TatakOS
