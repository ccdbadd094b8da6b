import TatakOS.Base.Bytes

/-!
# A free list in memory

The free blocks of an allocator are linked through their own first words. `FreeList m h P` says
that the list that starts at `h` in the memory `m` holds exactly the blocks in `P`, once each.
-/

namespace TatakOS

/-- The list that starts at `h`. -/
def Linked (m : Bytes) : ℕ → List ℕ → Prop
  | h, [] => h = 0
  | h, a :: l => h = a ∧ a ≠ 0 ∧ Linked m (m.get a 8) l

theorem Linked.congr {m m' : Bytes} {h : ℕ} {l : List ℕ} (hl : Linked m h l)
    (hm : ∀ a ∈ l, m'.get a 8 = m.get a 8) : Linked m' h l := by
  induction l generalizing h with
  | nil => exact hl
  | cons a l ih =>
    obtain ⟨rfl, h0, hl⟩ := hl
    refine ⟨rfl, h0, ?_⟩
    rw [hm _ (by simp)]
    exact ih hl fun a ha => hm a (by simp [ha])

theorem Linked.unique {m : Bytes} {h : ℕ} {l l' : List ℕ} (hl : Linked m h l)
    (hl' : Linked m h l') : l = l' := by
  induction l generalizing h l' with
  | nil =>
    cases l' with
    | nil => rfl
    | cons b l' => exact absurd (hl'.1.symm.trans hl) hl'.2.1
  | cons a l ih =>
    obtain ⟨rfl, h0, hl⟩ := hl
    cases l' with
    | nil => exact absurd hl' h0
    | cons b l' =>
      obtain ⟨rfl, -, hl'⟩ := hl'
      rw [ih hl hl']

def FreeList (m : Bytes) (h : ℕ) (P : ℕ → Prop) : Prop :=
  ∃ l, Linked m h l ∧ l.Nodup ∧ ∀ a, a ∈ l ↔ P a

variable {m m' : Bytes} {h : ℕ} {P P' : ℕ → Prop}

theorem FreeList.nil (hP : ∀ a, ¬ P a) : FreeList m 0 P :=
  ⟨[], rfl, List.nodup_nil, fun a => by simp [hP]⟩

theorem FreeList.unique (hf : FreeList m h P) (hf' : FreeList m h P') (a : ℕ) : P a ↔ P' a := by
  obtain ⟨l, hl, -, hmem⟩ := hf
  obtain ⟨l', hl', -, hmem'⟩ := hf'
  rw [← hmem, ← hmem', hl.unique hl']

theorem FreeList.congr (hf : FreeList m h P) (hm : ∀ a, P a → m'.get a 8 = m.get a 8)
    (hP : ∀ a, P' a ↔ P a) : FreeList m' h P' := by
  obtain ⟨l, hl, hn, hmem⟩ := hf
  exact ⟨l, hl.congr fun a ha => hm a ((hmem a).mp ha), hn, fun a => by rw [hmem, hP]⟩

theorem FreeList.pop (hf : FreeList m h P) (h0 : h ≠ 0) :
    P h ∧ FreeList m (m.get h 8) fun a => P a ∧ a ≠ h := by
  obtain ⟨l, hl, hn, hmem⟩ := hf
  cases l with
  | nil => exact absurd hl h0
  | cons a l =>
    obtain ⟨rfl, -, hl⟩ := hl
    obtain ⟨hnot, hn⟩ := List.nodup_cons.mp hn
    refine ⟨(hmem h).mp (by simp), l, hl, hn, fun b => ?_⟩
    show b ∈ l ↔ P b ∧ b ≠ h
    rw [← hmem, List.mem_cons]
    refine ⟨fun hb => ⟨.inr hb, ?_⟩, fun hb => hb.1.resolve_left hb.2⟩
    rintro rfl
    exact hnot hb

/-- A block that was not in the list is put in front. -/
theorem FreeList.push {b : ℕ} (hf : FreeList m h P) (hb : ¬ P b) (h0 : b ≠ 0)
    (hlink : m'.get b 8 = h) (hm : ∀ a, P a → m'.get a 8 = m.get a 8)
    (hP : ∀ a, P' a ↔ a = b ∨ P a) : FreeList m' b P' := by
  obtain ⟨l, hl, hn, hmem⟩ := hf
  refine ⟨b :: l, ⟨rfl, h0, ?_⟩, List.nodup_cons.mpr ⟨by rwa [hmem], hn⟩, fun a => ?_⟩
  · rw [hlink]
    exact hl.congr fun a ha => hm a ((hmem a).mp ha)
  · rw [hP, List.mem_cons, hmem]

end TatakOS
