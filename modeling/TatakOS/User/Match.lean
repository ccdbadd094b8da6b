import TatakOS.Base.CString
import TatakOS.Base.Fuel

/-!
# The pattern matcher of grep

`matchRe`, `matchhere` and `matchstar` are the functions of the source, over pattern and text in
memory. `readPattern` reads a pattern as a sequence of items, and `Pattern.Matches` is its meaning,
with no algorithm in it: some part of the text splits into pieces that the items match in order.
-/

namespace TatakOS.Grep

/-! ## The source -/

/-- The characters with a meaning of their own: `^`, `.`, `*` and `$`. -/
def caret : UInt8 := 94

def dot : UInt8 := 46

def asterisk : UInt8 := 42

def dollar : UInt8 := 36

mutual

/-- Search for `re` at the beginning of the text. -/
def matchhere (m : Bytes) : ℕ → ℕ → ℕ → Option Bool
  | 0, _, _ => none
  | fuel + 1, re, text =>
    if m re = 0 then some true
    else if m (re + 1) = asterisk then matchstar m fuel (m re) (re + 2) text
    else if m re = dollar ∧ m (re + 1) = 0 then some (m text == 0)
    else if m text ≠ 0 ∧ (m re = dot ∨ m re = m text) then matchhere m fuel (re + 1) (text + 1)
    else some false

/-- Search for `c*re` at the beginning of the text; one round of the loop for each call. -/
def matchstar (m : Bytes) : ℕ → UInt8 → ℕ → ℕ → Option Bool
  | 0, _, _, _ => none
  | fuel + 1, c, re, text =>
    (matchhere m fuel re text).bind fun found =>
      if found then some true
      else if m text ≠ 0 ∧ (m text = c ∨ c = dot) then matchstar m fuel c re (text + 1)
      else some false

end

/-- The loop of `match` over the places where a match can begin. -/
def matchLoop (m : Bytes) : ℕ → ℕ → ℕ → Option Bool
  | 0, _, _ => none
  | fuel + 1, re, text =>
    (matchhere m fuel re text).bind fun found =>
      if found then some true
      else if m text ≠ 0 then matchLoop m fuel re (text + 1)
      else some false

/-- `match`. -/
def matchRe (m : Bytes) (fuel re text : ℕ) : Option Bool :=
  if m re = caret then matchhere m fuel (re + 1) text else matchLoop m fuel re text

/-! ## The meaning of a pattern -/

/-- A character of the pattern, as the set of characters that it stands for. -/
def Stands (c x : UInt8) : Prop := c = dot ∨ c = x

/-- One character of the text, or any number of them. -/
inductive Item where
  | one (c : UInt8)
  | many (c : UInt8)
  deriving DecidableEq, Repr

/-- The pieces of text that an item matches. -/
def Item.Matches : Item → List UInt8 → Prop
  | one c, w => ∃ x, w = [x] ∧ Stands c x
  | many c, w => ∀ x ∈ w, Stands c x

/-- A pattern: where it has to begin and to end, and the items between. -/
structure Pattern where
  anchored : Bool
  items : List Item
  atEnd : Bool
  deriving DecidableEq, Repr

/-- The items of a pattern, and whether a `$` ends it. -/
def readItems : List UInt8 → List Item × Bool
  | [] => ([], false)
  | [c] => if c = dollar then ([], true) else ([.one c], false)
  | c :: d :: p =>
    if d = asterisk then ((.many c) :: (readItems p).1, (readItems p).2)
    else ((.one c) :: (readItems (d :: p)).1, (readItems (d :: p)).2)

def readPattern : List UInt8 → Pattern
  | c :: p =>
    if c = caret then ⟨true, (readItems p).1, (readItems p).2⟩
    else ⟨false, (readItems (c :: p)).1, (readItems (c :: p)).2⟩
  | [] => ⟨false, [], false⟩

/-- The text `w` splits into pieces that the items match in order. -/
def Splits (items : List Item) (w : List UInt8) : Prop :=
  ∃ pieces, w = pieces.flatten ∧ List.Forall₂ Item.Matches items pieces

/-- Some part of the text, at its beginning or its end if the pattern says so, splits into pieces
that the items match. -/
def Pattern.Matches (p : Pattern) (text : List UInt8) : Prop :=
  ∃ u w v, text = u ++ w ++ v ∧ (p.anchored = true → u = []) ∧ (p.atEnd = true → v = []) ∧
    Splits p.items w

/-! ## Matching at the beginning of a text -/

theorem splits_nil {w : List UInt8} : Splits [] w ↔ w = [] := by
  constructor
  · rintro ⟨pieces, rfl, h⟩
    cases h
    rfl
  · rintro rfl
    exact ⟨[], rfl, .nil⟩

theorem splits_cons {i : Item} {is : List Item} {w : List UInt8} :
    Splits (i :: is) w ↔ ∃ x y, w = x ++ y ∧ i.Matches x ∧ Splits is y := by
  constructor
  · rintro ⟨pieces, rfl, h⟩
    cases h with
    | cons hi his => exact ⟨_, _, rfl, hi, _, rfl, his⟩
  · rintro ⟨x, y, rfl, hi, pieces, rfl, his⟩
    exact ⟨x :: pieces, rfl, .cons hi his⟩

/-- The items match at the beginning of the text, and up to its end if `e` is set. -/
def Here (q : List Item × Bool) (text : List UInt8) : Prop :=
  ∃ w v, text = w ++ v ∧ (q.2 = true → v = []) ∧ Splits q.1 w

variable {q : List Item × Bool}

section Here

variable {c x : UInt8} {is : List Item} {e : Bool} {text : List UInt8}

theorem here_nil : Here ([], false) text :=
  ⟨[], text, rfl, nofun, splits_nil.mpr rfl⟩

theorem here_atEnd : Here ([], true) text ↔ text = [] := by
  constructor
  · rintro ⟨w, v, rfl, hv, hw⟩
    rw [hv rfl, splits_nil.mp hw, List.append_nil]
  · rintro rfl
    exact ⟨[], [], rfl, fun _ => rfl, splits_nil.mpr rfl⟩

theorem not_here_one_nil : ¬ Here (.one c :: is, e) [] := by
  rintro ⟨w, v, h, -, hw⟩
  obtain ⟨_, y, rfl, ⟨x, rfl, -⟩, -⟩ := splits_cons.mp hw
  cases h

theorem here_one_cons : Here (.one c :: is, e) (x :: text) ↔ Stands c x ∧ Here (is, e) text := by
  constructor
  · rintro ⟨w, v, h, hv, hw⟩
    obtain ⟨_, y, rfl, ⟨x', rfl, hx⟩, hy⟩ := splits_cons.mp hw
    obtain ⟨rfl, rfl⟩ : x = x' ∧ text = y ++ v := by simpa using h
    exact ⟨hx, y, v, rfl, hv, hy⟩
  · rintro ⟨hx, y, v, rfl, hv, hy⟩
    exact ⟨x :: y, v, rfl, hv, splits_cons.mpr ⟨[x], y, rfl, ⟨x, rfl, hx⟩, hy⟩⟩

/-- A starred item matches nothing, or one character and then itself again. -/
theorem here_many : Here (.many c :: is, e) text ↔
      Here (is, e) text ∨ ∃ x t, text = x :: t ∧ Stands c x ∧ Here (.many c :: is, e) t := by
  constructor
  · rintro ⟨w, v, rfl, hv, hw⟩
    obtain ⟨xs, y, rfl, hxs, hy⟩ := splits_cons.mp hw
    cases xs with
    | nil => exact .inl ⟨y, v, rfl, hv, hy⟩
    | cons x xs =>
      have hx : Stands c x := hxs x List.mem_cons_self
      have hrest : (Item.many c).Matches xs := fun z hz => hxs z (List.mem_cons_of_mem x hz)
      exact .inr ⟨x, xs ++ y ++ v, by simp, hx, xs ++ y, v, rfl, hv,
        splits_cons.mpr ⟨xs, y, rfl, hrest, hy⟩⟩
  · rintro (⟨y, v, rfl, hv, hy⟩ | ⟨x, _, rfl, hx, w, v, rfl, hv, hw⟩)
    · exact ⟨y, v, rfl, hv, splits_cons.mpr ⟨[], y, rfl, nofun, hy⟩⟩
    · obtain ⟨xs, y, rfl, hxs, hy⟩ := splits_cons.mp hw
      refine ⟨x :: xs ++ y, v, by simp, hv, splits_cons.mpr ⟨x :: xs, y, rfl, ?_, hy⟩⟩
      intro z hz
      rcases List.mem_cons.mp hz with rfl | hz
      · exact hx
      · exact hxs z hz

/-- A pattern that may begin anywhere. -/
theorem matches_iff_exists_here :
    (Pattern.mk false q.1 q.2).Matches text ↔ ∃ u t, text = u ++ t ∧ Here q t := by
  constructor
  · rintro ⟨u, w, v, rfl, -, hv, hw⟩
    exact ⟨u, w ++ v, List.append_assoc u w v, w, v, rfl, hv, hw⟩
  · rintro ⟨u, _, rfl, w, v, rfl, hv, hw⟩
    exact ⟨u, w, v, (List.append_assoc u w v).symm, nofun, hv, hw⟩

theorem matches_iff_here : (Pattern.mk true q.1 q.2).Matches text ↔ Here q text := by
  constructor
  · rintro ⟨u, w, v, rfl, hu, hv, hw⟩
    exact ⟨w, v, by rw [hu rfl, List.nil_append], hv, hw⟩
  · rintro ⟨w, v, rfl, hv, hw⟩
    exact ⟨[], w, v, rfl, fun _ => rfl, hv, hw⟩

end Here

/-! ## The functions return, with the right answer -/

/-- With enough fuel the function says whether `φ` holds. -/
def Answers (f : ℕ → Option Bool) (φ : Prop) : Prop := ∃ b, Returns f b ∧ (b = true ↔ φ)

section Answers

variable {f g h : ℕ → Option Bool} {φ ψ : Prop}

theorem Answers.congr (hf : Answers f φ) (hiff : φ ↔ ψ) : Answers f ψ := by
  obtain ⟨b, hb, hφ⟩ := hf
  exact ⟨b, hb, hφ.trans hiff⟩

theorem Answers.succ (hg : Answers g φ) (hfg : ∀ k, f (k + 1) = g k) : Answers f φ := by
  obtain ⟨b, hb, hφ⟩ := hg
  exact ⟨b, hb.succ hfg, hφ⟩

theorem Answers.const {b : Bool} (hf : ∀ k, f (k + 1) = some b) (hb : b = true ↔ φ) : Answers f φ :=
  ⟨b, Returns.const hf, hb⟩

theorem Answers.no : Answers (fun _ => some false) False :=
  ⟨false, ⟨0, fun _ _ => rfl⟩, by simp⟩

/-- First one question, and if the answer is no, another. -/
theorem Answers.orElse (hg : Answers g φ) (hh : Answers h ψ)
    (hf : ∀ k, f (k + 1) = (g k).bind fun found => if found then some true else h k) :
    Answers f (φ ∨ ψ) := by
  obtain ⟨b, hb, hφ⟩ := hg
  cases b with
  | true =>
    have hret := hb.bind (F := fun found k => if found then some true else h k)
      (c := true) ⟨0, fun _ _ => rfl⟩
    exact ⟨true, hret.succ hf, by simp [hφ.mp rfl]⟩
  | false =>
    obtain ⟨b', hb', hψ⟩ := hh
    have hret := hb.bind (F := fun found k => if found then some true else h k) (c := b') hb'
    have hno : ¬ φ := fun hyes => Bool.false_ne_true (hφ.mpr hyes)
    exact ⟨b', hret.succ hf, by simp [hψ, hno]⟩

end Answers

section Functions

variable {m : Bytes} {re text : ℕ} {c : UInt8} {T : List UInt8}

/-- The loop of `matchstar` goes through the text; what comes after the star is answered for every
text. -/
theorem matchstar_answers
    (hre : ∀ text T, CString m text T → Answers (fun k => matchhere m k re text) (Here q T)) :
    ∀ T text, CString m text T →
      Answers (fun k => matchstar m k c re text) (Here (.many c :: q.1, q.2) T) := by
  intro T
  induction T with
  | nil =>
    intro text hT
    have hor := (hre text [] hT).orElse (f := fun k => matchstar m k c re text) .no fun k => by
      rw [cstring_nil] at hT
      simp [matchstar, hT]
    exact hor.congr (Iff.trans (by simp) here_many.symm)
  | cons x T ih =>
    intro text hT
    have hT' := cstring_cons.mp hT
    by_cases hx : Stands c x
    · have hor := (hre text (x :: T) hT).orElse (f := fun k => matchstar m k c re text)
        (ih (text + 1) hT'.2.2) fun k => by
          have hcond : m text ≠ 0 ∧ (m text = c ∨ c = dot) := by
            rw [hT'.1]
            exact ⟨hT'.2.1, hx.elim .inr fun h => .inl h.symm⟩
          simp only [matchstar, if_pos hcond]
      exact hor.congr (Iff.trans (by simp [hx]) here_many.symm)
    · have hor := (hre text (x :: T) hT).orElse (f := fun k => matchstar m k c re text)
        .no fun k => by
          have hcond : ¬ (m text ≠ 0 ∧ (m text = c ∨ c = dot)) := by
            rw [hT'.1]
            exact fun h => hx (h.2.elim (fun h => .inr h.symm) .inl)
          simp only [matchstar, if_neg hcond]
      exact hor.congr (Iff.trans (by simp [hx]) here_many.symm)

/-- An ordinary character of the pattern takes one character of the text. -/
theorem matchhere_one (hc : m re = c) (h0 : c ≠ 0)
    (hstar : m (re + 1) ≠ asterisk) (hend : ¬ (c = dollar ∧ m (re + 1) = 0))
    (hre : ∀ text T, CString m text T → Answers (fun k => matchhere m k (re + 1) text) (Here q T))
    (hT : CString m text T) :
    Answers (fun k => matchhere m k re text) (Here (.one c :: q.1, q.2) T) := by
  have hm : m re ≠ 0 := hc ▸ h0
  have he : ¬ (m re = dollar ∧ m (re + 1) = 0) := hc ▸ hend
  cases T with
  | nil =>
    rw [cstring_nil] at hT
    refine Answers.const (b := false) (fun k => ?_) (by simp [not_here_one_nil])
    simp only [matchhere, if_neg hm, if_neg hstar, if_neg he]
    simp [hT]
  | cons x T =>
    obtain ⟨hx, hx0, hT⟩ := cstring_cons.mp hT
    by_cases hs : Stands c x
    · have hcond : m text ≠ 0 ∧ (m re = dot ∨ m re = m text) := by
        rw [hx, hc]
        exact ⟨hx0, hs⟩
      refine ((hre (text + 1) T hT).succ fun k => ?_).congr (by simp [here_one_cons, hs])
      simp only [matchhere, if_neg hm, if_neg hstar, if_neg he, if_pos hcond]
    · have hcond : ¬ (m text ≠ 0 ∧ (m re = dot ∨ m re = m text)) := by
        rw [hx, hc]
        exact fun h => hs h.2
      refine Answers.const (b := false) (fun k => ?_) (by simp [here_one_cons, hs])
      simp only [matchhere, if_neg hm, if_neg hstar, if_neg he, if_neg hcond]

/-- By induction on the pattern: each call of `matchhere` goes on with a shorter one. -/
theorem matchhere_answers : ∀ (P : List UInt8) (re : ℕ), CString m re P → ∀ text T,
    CString m text T → Answers (fun k => matchhere m k re text) (Here (readItems P) T)
  | [], re, hP, text, T, hT => by
    rw [cstring_nil] at hP
    refine Answers.const (b := true) (fun k => ?_) (by simp [readItems, here_nil])
    simp only [matchhere, if_pos hP]
  | [c], re, hP, text, T, hT => by
    obtain ⟨hc, h0, hend⟩ := cstring_cons.mp hP
    have hstar : m (re + 1) ≠ asterisk := by
      rw [cstring_nil.mp hend]
      decide
    by_cases hd : c = dollar
    · have hiff : (m text == 0) = true ↔ Here (readItems [c]) T := by
        simp only [readItems, if_pos hd, here_atEnd, beq_iff_eq]
        cases T with
        | nil => simpa using hT
        | cons x T =>
          obtain ⟨hx, hx0, -⟩ := cstring_cons.mp hT
          simp [hx, hx0]
      refine Answers.const (fun k => ?_) hiff
      have he : m re = dollar ∧ m (re + 1) = 0 := ⟨hc.trans hd, hend⟩
      simp only [matchhere, if_neg (hc ▸ h0 : m re ≠ 0), if_neg hstar, if_pos he]
    · simp only [readItems, if_neg hd]
      exact matchhere_one (q := ([], false)) hc h0 hstar (fun h => hd h.1)
        (matchhere_answers [] (re + 1) hend) hT
  | c :: d :: p, re, hP, text, T, hT => by
    obtain ⟨hc, h0, hd, hd0, hp⟩ := hP
    by_cases hs : d = asterisk
    · simp only [readItems, if_pos hs]
      have hstar := matchstar_answers (c := c) (matchhere_answers p (re + 2) hp) T text hT
      refine hstar.succ fun k => ?_
      simp only [matchhere, hc, if_neg h0, if_pos (hd.trans hs)]
    · simp only [readItems, if_neg hs]
      exact matchhere_one hc h0 (hd ▸ hs) (fun h => hd0 (hd.symm.trans h.2))
        (matchhere_answers (d :: p) (re + 1) ⟨hd, hd0, hp⟩) hT

/-- The places where a match can begin, from left to right. -/
theorem matchLoop_answers
    (hre : ∀ text T, CString m text T → Answers (fun k => matchhere m k re text) (Here q T)) :
    ∀ T text, CString m text T →
      Answers (fun k => matchLoop m k re text) (∃ u t, T = u ++ t ∧ Here q t) := by
  intro T
  induction T with
  | nil =>
    intro text hT
    have hor := (hre text [] hT).orElse (f := fun k => matchLoop m k re text) .no fun k => by
      rw [cstring_nil] at hT
      simp [matchLoop, hT]
    refine hor.congr ?_
    simp
  | cons x T ih =>
    intro text hT
    obtain ⟨hx, hx0, hT'⟩ := cstring_cons.mp hT
    have hor := (hre text (x :: T) hT).orElse (f := fun k => matchLoop m k re text)
      (ih (text + 1) hT') fun k => by
        have hcond : m text ≠ 0 := hx ▸ hx0
        simp only [matchLoop, if_pos hcond]
    refine hor.congr ?_
    constructor
    · rintro (h | ⟨u, t, rfl, h⟩)
      · exact ⟨[], x :: T, rfl, h⟩
      · exact ⟨x :: u, t, rfl, h⟩
    · rintro ⟨u, t, h, hq⟩
      cases u with
      | nil =>
        obtain rfl : x :: T = t := h
        exact .inl hq
      | cons y u =>
        obtain ⟨rfl, rfl⟩ : x = y ∧ T = u ++ t := by simpa using h
        exact .inr ⟨u, t, rfl, hq⟩

theorem matchRe_answers {P : List UInt8} (hP : CString m re P) (hT : CString m text T) :
    Answers (fun k => matchRe m k re text) ((readPattern P).Matches T) := by
  cases P with
  | nil =>
    have hne : m re ≠ caret := by
      rw [cstring_nil.mp hP]
      decide
    simp only [matchRe, if_neg hne]
    have hloop := matchLoop_answers (matchhere_answers [] re hP) T text hT
    exact hloop.congr matches_iff_exists_here.symm
  | cons c P =>
    have hc := (cstring_cons.mp hP).1
    by_cases hcaret : c = caret
    · simp only [matchRe, if_pos (hc.trans hcaret), readPattern, if_pos hcaret]
      have hhere := matchhere_answers P (re + 1) (cstring_cons.mp hP).2.2 text T hT
      exact hhere.congr matches_iff_here.symm
    · simp only [matchRe, if_neg (hc ▸ hcaret : m re ≠ caret), readPattern, if_neg hcaret]
      have hloop := matchLoop_answers (matchhere_answers (c :: P) re hP) T text hT
      exact hloop.congr matches_iff_exists_here.symm

end Functions

/-- `match` says whether the pattern matches the text; it and the functions that it calls return
for every pattern and text. -/
theorem match_denotes (m : Bytes) (re text : ℕ) (P T : List UInt8) (hP : CString m re P)
    (hT : CString m text T) :
    Answers (fun k => matchRe m k re text) ((readPattern P).Matches T) ∧
      (∃ b, Returns (fun k => matchhere m k re text) b) ∧
      ∀ c, ∃ b, Returns (fun k => matchstar m k c re text) b := by
  refine ⟨matchRe_answers hP hT, ?_, fun c => ?_⟩
  · obtain ⟨b, hb, -⟩ := matchhere_answers P re hP text T hT
    exact ⟨b, hb⟩
  · obtain ⟨b, hb, -⟩ := matchstar_answers (c := c) (matchhere_answers P re hP) T text hT
    exact ⟨b, hb⟩

/-- The pattern `b*$` at 1 and the text `ab` at 5. -/
def sampleMemory : Bytes := fun i => [0, 98, 42, 36, 0, 97, 98].getD i 0

theorem match_denotes_sample :
    CString sampleMemory 1 [98, 42, 36] ∧ CString sampleMemory 5 [97, 98] ∧
      Answers (fun k => matchRe sampleMemory k 1 5) ((readPattern [98, 42, 36]).Matches [97, 98]) :=
  ⟨by simp [CString, sampleMemory], by simp [CString, sampleMemory],
    (match_denotes sampleMemory 1 5 [98, 42, 36] [97, 98] (by simp [CString, sampleMemory])
      (by simp [CString, sampleMemory])).1⟩

end TatakOS.Grep
