import TatakOS.Shell.Grammar

/-!
# The tokens of the input

`lex` cuts a line into tokens. The cursor of the parser stands before a list of tokens (`Before`):
`peek` looks at the first of them, and `gettoken` takes it.
-/

namespace TatakOS.Shell

/-- The symbols of one character, `>` apart. -/
def symbolTok (c : UInt8) : Option Tok :=
  if c = Shell.lt then some .lt
  else if c = Shell.bar then some .bar
  else if c = Shell.amp then some .amp
  else if c = Shell.semi then some .semi
  else if c = Shell.lpar then some .lpar
  else if c = Shell.rpar then some .rpar
  else none

/-- What `gettoken` returns for a token. -/
def Tok.code : Tok → UInt8
  | .lt => Shell.lt
  | .gt => Shell.gt
  | .gtgt => plus
  | .bar => Shell.bar
  | .amp => Shell.amp
  | .semi => Shell.semi
  | .lpar => Shell.lpar
  | .rpar => Shell.rpar
  | .word _ => wordTok

/-- The first character of a token that is a symbol. -/
def Tok.char : Tok → Option UInt8
  | .gtgt => some Shell.gt
  | .word _ => none
  | t => some t.code

/-- What `peek` answers before the tokens `ts`. -/
def peeks (toks : List UInt8) (ts : List Tok) : Bool :=
  match ts.head?.bind Tok.char with
  | some c => strchr toks c
  | none => false

/-- What the parser uses to tell a symbol from other characters. -/
structure IsSymbol (c : UInt8) (t : Tok) : Prop where
  code : t.code = c
  char : t.char = some c
  notBlank : isBlank c = false
  ne_gt : c ≠ Shell.gt
  ne_zero : c ≠ 0
  mem : c = Shell.bar ∨ c = Shell.lpar ∨ c = Shell.rpar ∨ c = Shell.semi ∨ c = Shell.amp ∨
    c = Shell.lt

theorem isSymbol_of_symbolTok {c : UInt8} {t : Tok} (h : symbolTok c = some t) : IsSymbol c t := by
  unfold symbolTok at h
  split_ifs at h with h₁ h₂ h₃ h₄ h₅ h₆
  all_goals
    cases h
    subst c
    exact ⟨rfl, rfl, by decide, by decide, by decide, by decide⟩

/-- A character is a blank, `>`, another symbol or a character of a word. -/
theorem isWordChar_of_not {c : UInt8} (hb : isBlank c = false) (hgt : c ≠ Shell.gt)
    (hs : symbolTok c = none) : isWordChar c = true := by
  unfold symbolTok at hs
  split_ifs at hs with h₁ h₂ h₃ h₄ h₅ h₆
  have hws : strchr whitespace c = false := hb
  have hsym : strchr symbols c = false := by
    simp [strchr, symbols, h₁, h₂, h₃, h₄, h₅, h₆, hgt]
  simp [isWordChar, hws, hsym]

theorem not_symbol_of_isWordChar {c : UInt8} (h : isWordChar c = true) :
    isBlank c = false ∧ c ∉ symbols := by
  simp only [isWordChar, strchr, Bool.and_eq_true, Bool.not_eq_true'] at h
  refine ⟨h.1, fun hmem => ?_⟩
  rw [List.contains_iff_mem.mpr hmem] at h
  exact Bool.noConfusion h.2

/-- The tokens of the text that begins at `p`: `>>` rather than two `>`, and words as long as
possible. -/
def lex (p : ℕ) : List UInt8 → List Tok
  | [] => []
  | c :: cs =>
    if isBlank c then lex (p + 1) cs
    else if c = Shell.gt then
      match cs with
      | [] => [.gt]
      | d :: ds => if d = Shell.gt then .gtgt :: lex (p + 2) ds else .gt :: lex (p + 1) (d :: ds)
    else
      match symbolTok c with
      | some t => t :: lex (p + 1) cs
      | none =>
        .word ⟨p, c :: cs.takeWhile isWordChar⟩ ::
          lex (p + 1 + (cs.takeWhile isWordChar).length) (cs.dropWhile isWordChar)
termination_by l => l.length
decreasing_by
  all_goals simp only [List.length_cons]
  all_goals first
    | omega
    | exact Nat.lt_succ_of_le (List.dropWhile_suffix _).length_le

section Lex

variable {c : UInt8} {cs : List UInt8} {p : ℕ}

theorem lex_blank (h : isBlank c = true) : lex p (c :: cs) = lex (p + 1) cs := by
  rw [lex.eq_def]
  simp [h]

theorem lex_gtgt : lex p (Shell.gt :: Shell.gt :: cs) = .gtgt :: lex (p + 2) cs := by
  rw [lex.eq_def]
  simp [show isBlank Shell.gt = false by decide]

theorem lex_gt (h : cs.head? ≠ some Shell.gt) : lex p (Shell.gt :: cs) = .gt :: lex (p + 1) cs := by
  rw [lex.eq_def]
  cases cs with
  | nil => simp [show isBlank Shell.gt = false by decide, lex]
  | cons d ds =>
    have hd : d ≠ Shell.gt := fun hd => h (by rw [hd]; rfl)
    simp [show isBlank Shell.gt = false by decide, hd]

theorem lex_symbol {t : Tok} (h : symbolTok c = some t) :
    lex p (c :: cs) = t :: lex (p + 1) cs := by
  have hsym := isSymbol_of_symbolTok h
  rw [lex.eq_def]
  simp [hsym.notBlank, hsym.ne_gt, h]

theorem lex_word (hb : isBlank c = false) (hgt : c ≠ Shell.gt) (hs : symbolTok c = none) :
    lex p (c :: cs) = .word ⟨p, c :: cs.takeWhile isWordChar⟩ ::
      lex (p + 1 + (cs.takeWhile isWordChar).length) (cs.dropWhile isWordChar) := by
  rw [lex.eq_def]
  simp [hb, hgt, hs]

end Lex

section Advance

variable {m : Bytes} {s es : ℕ} {X : List UInt8} {p : UInt8 → Bool}

theorem advanceLoop_eq (h : CString m s X) :
    advanceLoop p m X.length s = s + (X.takeWhile p).length := by
  induction X generalizing s with
  | nil => rfl
  | cons c X ih =>
    obtain ⟨hc, -, hX⟩ := cstring_cons.mp h
    rw [List.length_cons, advanceLoop, hc]
    cases hp : p c with
    | true =>
      rw [if_pos rfl, ih hX, List.takeWhile_cons_of_pos hp, List.length_cons]
      omega
    | false =>
      rw [if_neg Bool.false_ne_true, List.takeWhile_cons_of_neg (by simp [hp])]
      rfl

theorem advance_eq (h : CString m s X) (hes : s + X.length = es) :
    advance p m es s = s + (X.takeWhile p).length := by
  rw [advance, show es - s = X.length by omega, advanceLoop_eq h]

theorem cstring_dropWhile (h : CString m s X) :
    CString m (s + (X.takeWhile p).length) (X.dropWhile p) := by
  rw [← List.takeWhile_append_dropWhile (p := p) (l := X)] at h
  exact h.append_right

end Advance

theorem lex_dropWhile (s : ℕ) (X : List UInt8) :
    lex (s + (X.takeWhile isBlank).length) (X.dropWhile isBlank) = lex s X := by
  induction X generalizing s with
  | nil => rfl
  | cons c X ih =>
    cases hc : isBlank c with
    | true =>
      rw [List.takeWhile_cons_of_pos hc, List.dropWhile_cons_of_pos hc, List.length_cons,
        show s + ((X.takeWhile isBlank).length + 1) = s + 1 + (X.takeWhile isBlank).length by omega,
        ih, lex_blank hc]
    | false =>
      have hneg : ¬ isBlank c = true := by simp [hc]
      rw [List.takeWhile_cons_of_neg hneg, List.dropWhile_cons_of_neg hneg]
      rfl

/-! ## The cursor -/

/-- The cursor `s` stands before the tokens `ts`, which end where the input does. -/
def Before (m : Bytes) (es s : ℕ) (ts : List Tok) : Prop :=
  ∃ X, CString m s X ∧ s + X.length = es ∧ lex s X = ts

section Cursor

variable {m : Bytes} {s es : ℕ} {ts : List Tok} {t : Tok} {X : List UInt8}

theorem Before.skip (h : Before m es s ts) :
    ∃ X, CString m (advance isBlank m es s) X ∧ advance isBlank m es s + X.length = es ∧
      lex (advance isBlank m es s) X = ts ∧ ∀ c, X.head? = some c → isBlank c = false := by
  obtain ⟨X, hX, hes, hlex⟩ := h
  have hlen := congrArg List.length (List.takeWhile_append_dropWhile (p := isBlank) (l := X))
  rw [List.length_append] at hlen
  refine ⟨X.dropWhile isBlank, ?_, ?_, ?_, fun c hc => ?_⟩
  · rw [advance_eq hX hes]
    exact cstring_dropWhile hX
  · rw [advance_eq hX hes]
    omega
  · rw [advance_eq hX hes, lex_dropWhile, hlex]
  · have hnot := List.head?_dropWhile_not isBlank X
    rw [hc] at hnot
    simpa using hnot

theorem Before.blanks (h : Before m es s ts) : Before m es (advance isBlank m es s) ts := by
  obtain ⟨X, hX, hes, hlex, -⟩ := h.skip
  exact ⟨X, hX, hes, hlex⟩

/-- The token `tok` at `s` is `t`, and `ts` come after it. -/
structure Takes (m : Bytes) (es s : ℕ) (t : Tok) (ts : List Tok) (tok : Token) : Prop where
  ne_zero : m s ≠ 0
  first : t.char = some (m s) ∨ t.char = none ∧ isWordChar (m s) = true
  ret : tok.ret = t.code
  word : ∀ w, t = .word w → tok.q = w.pos ∧ tok.eq = w.stop
  rest : Before m es tok.eq ts

theorem takes_symbol {c : UInt8} {cs : List UInt8} (hX : CString m s (c :: cs))
    (hes : s + (c :: cs).length = es) (ht : symbolTok c = some t) :
    Takes m es s t (lex (s + 1) cs) (tokenAt m es s) := by
  have hsym := isSymbol_of_symbolTok ht
  have hc := (cstring_cons.mp hX).1
  rw [List.length_cons] at hes
  have htok : tokenAt m es s = ⟨c, s, s + 1⟩ := by
    simp only [tokenAt, hc, if_neg hsym.ne_zero, if_pos hsym.mem]
  rw [htok]
  refine ⟨hc ▸ hsym.ne_zero, .inl (hc ▸ hsym.char), hsym.code.symm, fun w hw => ?_, cs,
    (cstring_cons.mp hX).2.2, by dsimp only; omega, rfl⟩
  rw [hw] at hsym
  cases hsym.char

theorem gt_other : Shell.gt ≠ 0 ∧ ¬ (Shell.gt = Shell.bar ∨ Shell.gt = Shell.lpar ∨
    Shell.gt = Shell.rpar ∨ Shell.gt = Shell.semi ∨ Shell.gt = Shell.amp ∨
    Shell.gt = Shell.lt) := by decide

theorem takes_gtgt {cs : List UInt8} (hX : CString m s (Shell.gt :: Shell.gt :: cs))
    (hes : s + (Shell.gt :: Shell.gt :: cs).length = es) :
    Takes m es s .gtgt (lex (s + 2) cs) (tokenAt m es s) := by
  obtain ⟨hc, -, hd, -, hcs⟩ := hX
  rw [List.length_cons, List.length_cons] at hes
  have htok : tokenAt m es s = ⟨plus, s, s + 2⟩ := by
    simp only [tokenAt, hc, hd, if_neg gt_other.1, if_neg gt_other.2, if_true]
  rw [htok]
  exact ⟨hc ▸ gt_other.1, .inl (hc ▸ rfl), rfl, nofun, cs, hcs, by dsimp only; omega, rfl⟩

theorem takes_gt {cs : List UInt8} (hX : CString m s (Shell.gt :: cs))
    (hes : s + (Shell.gt :: cs).length = es) (hcs : cs.head? ≠ some Shell.gt) :
    Takes m es s .gt (lex (s + 1) cs) (tokenAt m es s) := by
  obtain ⟨hc, -, hX'⟩ := cstring_cons.mp hX
  rw [List.length_cons] at hes
  have hd : m (s + 1) ≠ Shell.gt := by
    cases cs with
    | nil =>
      rw [cstring_nil.mp hX']
      decide
    | cons d ds =>
      rw [(cstring_cons.mp hX').1]
      exact fun h => hcs (by rw [h]; rfl)
  have htok : tokenAt m es s = ⟨Shell.gt, s, s + 1⟩ := by
    simp only [tokenAt, hc, if_neg hd, if_neg gt_other.1, if_neg gt_other.2, if_true]
  rw [htok]
  exact ⟨hc ▸ gt_other.1, .inl (hc ▸ rfl), rfl, nofun, cs, hX', by dsimp only; omega, rfl⟩

theorem takes_word {c : UInt8} {cs : List UInt8} (hX : CString m s (c :: cs))
    (hes : s + (c :: cs).length = es) (hb : isBlank c = false) (hgt : c ≠ Shell.gt)
    (hs : symbolTok c = none) :
    Takes m es s (.word ⟨s, c :: cs.takeWhile isWordChar⟩)
      (lex (s + 1 + (cs.takeWhile isWordChar).length) (cs.dropWhile isWordChar))
      (tokenAt m es s) := by
  have hword := isWordChar_of_not hb hgt hs
  obtain ⟨hc, hne, -⟩ := cstring_cons.mp hX
  have hmem : ¬ (c = Shell.bar ∨ c = Shell.lpar ∨ c = Shell.rpar ∨ c = Shell.semi ∨
      c = Shell.amp ∨ c = Shell.lt) := by
    have hsym := (not_symbol_of_isWordChar hword).2
    simp only [symbols, List.mem_cons, List.not_mem_nil, or_false, not_or] at hsym ⊢
    tauto
  have hadv : advance isWordChar m es s = s + 1 + (cs.takeWhile isWordChar).length := by
    rw [advance_eq hX hes, List.takeWhile_cons_of_pos hword, List.length_cons]
    omega
  have htok : tokenAt m es s = ⟨wordTok, s, s + 1 + (cs.takeWhile isWordChar).length⟩ := by
    simp only [tokenAt, hc, if_neg hne, if_neg hmem, if_neg hgt, hadv]
  have hlen := congrArg List.length (List.takeWhile_append_dropWhile (p := isWordChar) (l := cs))
  rw [List.length_append] at hlen
  rw [List.length_cons] at hes
  rw [htok]
  refine ⟨hc ▸ hne, .inr ⟨rfl, hc ▸ hword⟩, rfl, fun w hw => ?_, cs.dropWhile isWordChar, ?_,
    by dsimp only; omega, rfl⟩
  · cases hw
    refine ⟨rfl, ?_⟩
    simp only [Word.stop, List.length_cons]
    omega
  · exact cstring_dropWhile (cstring_cons.mp hX).2.2

theorem lex_takes {c : UInt8} {cs : List UInt8} (hX : CString m s (c :: cs))
    (hes : s + (c :: cs).length = es) (hb : isBlank c = false) :
    ∃ t ts, lex s (c :: cs) = t :: ts ∧ Takes m es s t ts (tokenAt m es s) := by
  by_cases hgt : c = Shell.gt
  · subst hgt
    by_cases hcs : cs.head? = some Shell.gt
    · obtain ⟨ds, rfl⟩ : ∃ ds, cs = Shell.gt :: ds := List.head?_eq_some_iff.mp hcs
      exact ⟨_, _, lex_gtgt, takes_gtgt hX hes⟩
    · exact ⟨_, _, lex_gt hcs, takes_gt hX hes hcs⟩
  · cases hs : symbolTok c with
    | some t => exact ⟨_, _, lex_symbol hs, takes_symbol hX hes hs⟩
    | none => exact ⟨_, _, lex_word hb hgt hs, takes_word hX hes hb hgt hs⟩

theorem Before.nil (h : Before m es s []) :
    m (advance isBlank m es s) = 0 ∧ advance isBlank m es s = es := by
  obtain ⟨X, hX, hes, hlex, hhead⟩ := h.skip
  cases X with
  | nil => exact ⟨hX, hes⟩
  | cons c cs =>
    obtain ⟨t, ts, heq, -⟩ := lex_takes hX hes (hhead c rfl)
    rw [heq] at hlex
    cases hlex

theorem Before.cons (h : Before m es s (t :: ts)) :
    Takes m es (advance isBlank m es s) t ts (tokenAt m es (advance isBlank m es s)) := by
  obtain ⟨X, hX, hes, hlex, hhead⟩ := h.skip
  cases X with
  | nil =>
    rw [lex] at hlex
    cases hlex
  | cons c cs =>
    obtain ⟨t, ts, heq, htakes⟩ := lex_takes hX hes (hhead c rfl)
    rw [heq] at hlex
    cases hlex
    exact htakes

theorem Takes.peeks {tok : Token} (h : Takes m es s t ts tok) {toks : List UInt8}
    (htoks : toks ⊆ symbols) : (m s != 0 && strchr toks (m s)) = peeks toks (t :: ts) := by
  have hne : (m s != 0) = true := by simpa using h.ne_zero
  rw [hne, Bool.true_and]
  rcases h.first with hchar | ⟨hchar, hword⟩
  · simp [Shell.peeks, hchar]
  · have hnot : strchr toks (m s) = false := by
      have hsym := (not_symbol_of_isWordChar hword).2
      simpa [strchr] using fun hmem => hsym (htoks hmem)
    simp [Shell.peeks, hchar, hnot]

/-! ## Looking at a token, and taking it -/

variable {st : Parser} {E : Stop → Prop}

theorem spec_peek {toks : List UInt8} {Q : Bool → Parser → Prop} (h : Before m es st.ps ts)
    (htoks : toks ⊆ symbols)
    (hQ : ∀ s, Before m es s ts → Q (peeks toks ts) { st with ps := s }) :
    Spec (peek m es toks) st Q E := by
  have heq : (m (advance isBlank m es st.ps) != 0 &&
      strchr toks (m (advance isBlank m es st.ps))) = peeks toks ts := by
    cases ts with
    | nil => simp [h.nil.1, peeks]
    | cons t ts => exact h.cons.peeks htoks
  simp only [peek, spec_bind, spec_get, spec_set, spec_pure, heq]
  exact hQ _ h.blanks

variable {Q : Token → Parser → Prop}

theorem spec_gettoken (h : Before m es st.ps (t :: ts))
    (hQ : ∀ tok s, Before m es s ts → tok.ret = t.code →
      (∀ w, t = .word w → tok.q = w.pos ∧ tok.eq = w.stop) → Q tok { st with ps := s }) :
    Spec (gettoken m es) st Q E := by
  simp only [gettoken, spec_bind, spec_get, spec_set, spec_pure]
  exact hQ _ _ h.cons.rest.blanks h.cons.ret h.cons.word

/-- `gettoken` returns 0 at the end of the input and stays there. -/
theorem spec_gettoken_nil (h : Before m es st.ps [])
    (hQ : ∀ tok s, Before m es s [] → tok.ret = 0 → Q tok { st with ps := s }) :
    Spec (gettoken m es) st Q E := by
  have htok : tokenAt m es (advance isBlank m es st.ps) =
      ⟨0, advance isBlank m es st.ps, advance isBlank m es st.ps⟩ := by
    simp [tokenAt, h.nil.1]
  simp only [gettoken, spec_bind, spec_get, spec_set, spec_pure, htok]
  exact hQ _ _ h.blanks.blanks rfl

end Cursor

end TatakOS.Shell
