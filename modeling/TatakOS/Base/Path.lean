import Mathlib.Data.List.Nodup
import Mathlib.Logic.Function.Basic

/-!
# Linked lists through a pointer field

`f` maps each node to the node its pointer field points to. `Path f a l z` says that the pointers
lead from `a` through the nodes `l` to `z`; a circular list through the head `h` is a path from
`h` to `h`. A node is taken out of a path or put into it by changing the pointer of the node
before it.
-/

namespace TatakOS

open Function

variable {α : Type*}

/-- The pointers lead from `a` through `l` to `z`. -/
def Path (f : α → α) : α → List α → α → Prop
  | a, [], z => f a = z
  | a, x :: l, z => f a = x ∧ Path f x l z

variable {f g : α → α} {a b x z : α} {l l₁ l₂ : List α}

@[simp] theorem path_nil : Path f a [] z ↔ f a = z := Iff.rfl

@[simp] theorem path_cons : Path f a (x :: l) z ↔ f a = x ∧ Path f x l z := Iff.rfl

theorem path_append : Path f a (l₁ ++ x :: l₂) z ↔ Path f a l₁ x ∧ Path f x l₂ z := by
  induction l₁ generalizing a with
  | nil => rfl
  | cons y l₁ ih => simp [ih, and_assoc]

theorem Path.congr (h : Path f a l z) (hg : ∀ y ∈ a :: l, g y = f y) : Path g a l z := by
  induction l generalizing a with
  | nil => exact (hg a (by simp)).trans h
  | cons y l ih =>
    refine ⟨(hg a (by simp)).trans h.1, ih h.2 fun x hx => hg x ?_⟩
    exact List.mem_cons_of_mem a hx

theorem Path.last (h : Path f a l z) : f ((a :: l).getLast (List.cons_ne_nil a l)) = z := by
  induction l generalizing a with
  | nil => exact h
  | cons y l ih =>
    rw [List.getLast_cons (List.cons_ne_nil y l)]
    exact ih h.2

theorem last_notMem (hn : (a :: l₁ ++ l₂).Nodup) :
    (a :: l₁).getLast (List.cons_ne_nil a l₁) ∉ l₂ := by
  have hdisj := (List.nodup_append.mp hn).2.2
  intro hmem
  exact hdisj _ (List.getLast_mem _) _ hmem rfl

/-- Two pointer fields that lead through the same nodes in the two directions are inverse. -/
theorem Path.inverse (hf : Path f a l z) (hg : Path g z l.reverse a) : ∀ y ∈ a :: l, g (f y) = y := by
  induction l generalizing a with
  | nil =>
    intro y hy
    obtain rfl := List.mem_singleton.mp hy
    rwa [path_nil.mp hf]
  | cons x l ih =>
    rw [List.reverse_cons] at hg
    obtain ⟨hg, hx⟩ := path_append.mp hg
    intro y hy
    rcases List.mem_cons.mp hy with rfl | hy
    · rwa [hf.1]
    · exact ih hf.2 hg y hy

section Update

variable [DecidableEq α]

theorem Path.redirect (h : Path f a l z) (hn : (a :: l).Nodup) (c : α) :
    Path (update f ((a :: l).getLast (List.cons_ne_nil a l)) c) a l c := by
  induction l generalizing a with
  | nil => simp
  | cons y l ih =>
    obtain ⟨ha, hn⟩ := List.nodup_cons.mp hn
    rw [List.getLast_cons (List.cons_ne_nil y l)]
    refine ⟨?_, ih h.2 hn⟩
    have hne : a ≠ (y :: l).getLast (List.cons_ne_nil y l) :=
      fun heq => ha (heq ▸ List.getLast_mem (List.cons_ne_nil y l))
    rw [update_of_ne hne, h.1]

/-- Take `b` out: the node before it gets its pointer. -/
theorem Path.erase (h : Path f a (l₁ ++ b :: l₂) z) (hn : (a :: l₁ ++ b :: l₂).Nodup) :
    Path (update f ((a :: l₁).getLast (List.cons_ne_nil a l₁)) (f b)) a (l₁ ++ l₂) z := by
  obtain ⟨h₁, h₂⟩ := path_append.mp h
  have hlast := last_notMem hn
  have hn₁ : (a :: l₁).Nodup := (List.nodup_append.mp hn).1
  have hred := h₁.redirect hn₁ (f b)
  cases l₂ with
  | nil =>
    rw [List.append_nil]
    rwa [show f b = z from h₂] at hred ⊢
  | cons y l₂ =>
    obtain ⟨hb, h₂⟩ := h₂
    rw [hb] at hred ⊢
    refine path_append.mpr ⟨hred, h₂.congr fun x hx => ?_⟩
    refine update_of_ne (fun heq => hlast ?_) _ _
    rw [← heq]
    exact List.mem_cons_of_mem b hx

/-- Put `b` in: it gets the pointer of the node before it, which then points to it. -/
theorem Path.insert (h : Path f a (l₁ ++ l₂) z) (hn : (a :: l₁ ++ l₂).Nodup)
    (hb : b ∉ a :: l₁ ++ l₂) :
    Path (update (update f b (f ((a :: l₁).getLast (List.cons_ne_nil a l₁))))
      ((a :: l₁).getLast (List.cons_ne_nil a l₁)) b) a (l₁ ++ b :: l₂) z := by
  have hn₁ : (a :: l₁).Nodup := (List.nodup_append.mp hn).1
  have hlast := last_notMem hn
  have hbl : b ≠ (a :: l₁).getLast (List.cons_ne_nil a l₁) :=
    fun heq => hb (heq ▸ List.mem_append_left _ (List.getLast_mem (List.cons_ne_nil a l₁)))
  have hkeep : ∀ w c, Path f a l₁ w → Path (update f b c) a l₁ w := by
    intro w c hw
    refine hw.congr fun y hy => update_of_ne (fun heq => hb ?_) _ _
    rw [← heq]
    exact List.mem_append_left _ hy
  cases l₂ with
  | nil =>
    rw [List.append_nil] at h
    refine path_append.mpr ⟨(hkeep z _ h).redirect hn₁ b, ?_⟩
    rw [path_nil, update_of_ne hbl, update_self, h.last]
  | cons y l₂ =>
    obtain ⟨h₁, h₂⟩ := path_append.mp h
    refine path_append.mpr ⟨(hkeep y _ h₁).redirect hn₁ b, ?_, h₂.congr fun x hx => ?_⟩
    · rw [update_of_ne hbl, update_self, h₁.last]
    · have hx₁ : x ≠ (a :: l₁).getLast (List.cons_ne_nil a l₁) := fun heq => hlast (heq ▸ hx)
      have hx₂ : x ≠ b := fun heq => hb (heq ▸ List.mem_append_right _ hx)
      rw [update_of_ne hx₁, update_of_ne hx₂]

end Update

/-! ## Circles in both directions -/

/-- `f` leads from `h` through `l` back to `h`, and `g` the other way round. -/
structure Ring (f g : α → α) (h : α) (l : List α) : Prop where
  forth : Path f h l h
  back : Path g h l.reverse h
  nodup : (h :: l).Nodup

section Ring

variable {h : α}

theorem last_reverse_mem : (h :: l.reverse).getLast (List.cons_ne_nil h l.reverse) ∈ h :: l := by
  rcases List.mem_cons.mp (List.getLast_mem (List.cons_ne_nil h l.reverse)) with heq | hmem
  · rw [heq]
    exact List.mem_cons_self
  · exact List.mem_cons_of_mem h (List.mem_reverse.mp hmem)

theorem Ring.nodup_reverse (hr : Ring f g h l) : (h :: l.reverse).Nodup := by
  obtain ⟨hh, hl⟩ := List.nodup_cons.mp hr.nodup
  exact List.nodup_cons.mpr ⟨by simpa using hh, List.nodup_reverse.mpr hl⟩

theorem Ring.inverse (hr : Ring f g h l) : ∀ y ∈ h :: l, g (f y) = y ∧ f (g y) = y := by
  intro y hy
  have hback : Path f h l.reverse.reverse h := by rw [List.reverse_reverse]; exact hr.forth
  refine ⟨hr.forth.inverse hr.back y hy, hr.back.inverse hback y ?_⟩
  simpa using hy

theorem Ring.next_ne (hr : Ring f g h (l₁ ++ b :: l₂)) : f b ≠ b := by
  have hpath := (path_append.mp hr.forth).2
  have hnodup := hr.nodup
  rw [← List.cons_append, List.nodup_middle] at hnodup
  have hb := (List.nodup_cons.mp hnodup).1
  cases l₂ with
  | nil =>
    rw [path_nil.mp hpath]
    exact fun heq => hb (by simp [heq])
  | cons y l₂ =>
    rw [hpath.1]
    exact fun heq => hb (by simp [heq])

variable [DecidableEq α]

theorem Ring.unlink (hr : Ring f g h (l₁ ++ b :: l₂)) :
    Ring (update f (g b) (f b)) (update g (f b) (g b)) h (l₁ ++ l₂) := by
  have hback := hr.back
  have hnodup := hr.nodup_reverse
  rw [List.reverse_append, List.reverse_cons, List.append_assoc, List.singleton_append] at hback
  rw [List.reverse_append, List.reverse_cons, List.append_assoc, List.singleton_append] at hnodup
  have hlast := (path_append.mp hr.forth).1.last
  have hlast' := (path_append.mp hback).1.last
  have hprev : g b = (h :: l₁).getLast (List.cons_ne_nil h l₁) := by
    rw [← hlast, (hr.inverse _ ?_).1]
    rw [← List.cons_append]
    exact List.mem_append_left _ (List.getLast_mem _)
  have hnext : f b = (h :: l₂.reverse).getLast (List.cons_ne_nil h l₂.reverse) := by
    rw [← hlast', (hr.inverse _ ?_).2]
    have hsub : l₂ ⊆ l₁ ++ b :: l₂ := by
      intro y hy
      simp [hy]
    exact List.cons_subset_cons h hsub last_reverse_mem
  constructor
  · rw [hprev]
    exact hr.forth.erase hr.nodup
  · rw [hnext, List.reverse_append]
    exact hback.erase hnodup
  · refine hr.nodup.sublist (List.Sublist.cons_cons h ?_)
    exact List.Sublist.append_left (List.sublist_cons_self b l₂) l₁

theorem Ring.push (hr : Ring f g h l) (hb : b ∉ h :: l) : Ring (update (update f b (f h)) h b)
      (update (update g b h) (f h) b) h (b :: l) := by
  have hfirst : f h = (h :: l.reverse).getLast (List.cons_ne_nil h l.reverse) := by
    have hinv := (hr.inverse _ last_reverse_mem).2
    rwa [hr.back.last] at hinv
  have hback : Path g h (l.reverse ++ []) h := by rw [List.append_nil]; exact hr.back
  have hnodup : (h :: l.reverse ++ []).Nodup := by rw [List.append_nil]; exact hr.nodup_reverse
  have hb' : b ∉ h :: l.reverse ++ [] := by simpa using hb
  constructor
  · have hforth : Path f h ([] ++ l) h := hr.forth
    exact hforth.insert hr.nodup hb
  · have hins := hback.insert hnodup hb'
    rwa [hr.back.last, ← hfirst, ← List.reverse_cons] at hins
  · obtain ⟨hh, hl⟩ := List.nodup_cons.mp hr.nodup
    obtain ⟨hbh, hbl⟩ : b ≠ h ∧ b ∉ l := by simpa using hb
    refine List.nodup_cons.mpr ⟨?_, List.nodup_cons.mpr ⟨hbl, hl⟩⟩
    simp [hbh.symm, hh]

end Ring

/-! ## Searching -/

section Search

variable [DecidableEq α]

/-- Follow the pointers from `b` to the first node with `p`, or to the head `h`. -/
def search (f : α → α) (h : α) (p : α → Bool) : ℕ → α → Option (Option α)
  | 0, _ => none
  | n + 1, b => if b = h then some none else if p b then some (some b) else search f h p n (f b)

theorem Path.search {h : α} {p : α → Bool} : ∀ {l : List α} {a : α} {n : ℕ}, Path f a l h → h ∉ l →
    l.length < n → search f h p n (f a) = some (l.find? p) := by
  intro l
  induction l with
  | nil =>
    intro a n hl _ hn
    obtain ⟨n, rfl⟩ : ∃ k, n = k + 1 := ⟨n - 1, by omega⟩
    rw [path_nil.mp hl, TatakOS.search, if_pos rfl]
    rfl
  | cons x l ih =>
    intro a n hl hh hn
    rw [List.length_cons] at hn
    obtain ⟨n, rfl⟩ : ∃ k, n = k + 1 := ⟨n - 1, by omega⟩
    have hx : x ≠ h := fun heq => hh (heq ▸ List.mem_cons_self)
    rw [hl.1, TatakOS.search, if_neg hx, List.find?_cons]
    cases hp : p x with
    | true => simp
    | false =>
      simp only [Bool.false_eq_true, if_false]
      exact ih hl.2 (fun hmem => hh (List.mem_cons_of_mem x hmem)) (by omega)

end Search

end TatakOS
