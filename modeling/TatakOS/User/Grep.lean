import TatakOS.Lib.Memmove
import TatakOS.User.Match

/-!
# grep

`grep` reads into a buffer of 1024 bytes, which may hold the begin of a line from the reads before,
and prints the lines in it that match. `sizes` says how many bytes each `read` returns, where there
are as many. A line of more than 1022 characters fills the buffer; the next `read` is then one of no
bytes, and `grep` ends as at the end of the input.
-/

namespace TatakOS.Grep

open Function

/-! ## The source -/

def newline : UInt8 := 10

def strchr (m : Bytes) : ℕ → ℕ → UInt8 → Option (Option ℕ)
  | 0, _, _ => none
  | fuel + 1, s, c =>
    if m s = 0 then some none
    else if m s = c then some (some s)
    else strchr m fuel (s + 1) c

/-- The loop over the lines in the buffer, with the output so far. -/
def lineLoop (pattern : ℕ) : ℕ → Bytes → ℕ → List UInt8 → Option (Bytes × ℕ × List UInt8)
  | 0, _, _, _ => none
  | fuel + 1, mem, p, out =>
    (strchr mem fuel p newline).bind fun
      | none => some (mem, p, out)
      | some q =>
        let mem := update mem q 0
        (matchRe mem fuel pattern p).bind fun found =>
          if found then
            let mem : Bytes := update mem q newline
            lineLoop pattern fuel mem (q + 1) (out ++ mem.slice p (q + 1 - p))
          else lineLoop pattern fuel mem (q + 1) out

/-- The loop over the reads, from the `i`-th on; `input` is what is left of the file. -/
def grepLoop (pattern buf : ℕ) (sizes : ℕ → ℕ) :
    ℕ → ℕ → Bytes → ℕ → List UInt8 → List UInt8 → Option (List UInt8)
  | 0, _, _, _, _, _ => none
  | fuel + 1, i, mem, m, input, out =>
    let n := min (sizes i + 1) (min (1024 - m - 1) input.length)
    if n = 0 then some out
    else
      let mem := update (mem.blit (buf + m) (input.take n)) (buf + m + n) 0
      (lineLoop pattern fuel mem buf out).bind fun (mem, p, out) =>
        let m := m + n - (p - buf)
        let mem := (User.memmove mem (.ofNat buf) (.ofNat p) (.ofNat m)).2
        grepLoop pattern buf sizes fuel (i + 1) mem m (input.drop n) out

def grep (mem : Bytes) (pattern buf : ℕ) (sizes : ℕ → ℕ) (fuel : ℕ) (input : List UInt8) :
    Option (List UInt8) :=
  grepLoop pattern buf sizes fuel 0 mem 0 input []

/-! ## Lines -/

/-- The lines that end in `input`, where the first of them begins with `start`. -/
def lines : (start : List UInt8) → List UInt8 → List (List UInt8)
  | _, [] => []
  | start, c :: input =>
    if c = newline then start :: lines [] input else lines (start ++ [c]) input

/-- The line that does not end in `input`. -/
def rest : (start : List UInt8) → List UInt8 → List UInt8
  | start, [] => start
  | start, c :: input => if c = newline then rest [] input else rest (start ++ [c]) input

open Classical in
/-- What is to be printed of some lines. -/
noncomputable def selected (P : List UInt8) (ls : List (List UInt8)) : List UInt8 :=
  (ls.filter fun l => (readPattern P).Matches l).flatMap (· ++ [newline])

/-- The line and its newline fit in the buffer. -/
def fits (l : List UInt8) : Bool := l.length ≤ 1022

variable {a x y : List UInt8} {P : List UInt8}

theorem lines_append : lines a (x ++ y) = lines a x ++ lines (rest a x) y ∧
    rest a (x ++ y) = rest (rest a x) y := by
  induction x generalizing a with
  | nil => exact ⟨rfl, rfl⟩
  | cons c x ih =>
    simp only [List.cons_append, lines, rest]
    split_ifs <;> simp [ih]

theorem lines_of_notMem (h : newline ∉ x) : lines a x = [] ∧ rest a x = a ++ x := by
  induction x generalizing a with
  | nil => simp [lines, rest]
  | cons c x ih =>
    obtain ⟨hc, hx⟩ : newline ≠ c ∧ newline ∉ x := by simpa using h
    simp [lines, rest, hc.symm, ih hx]

theorem lines_line (h : newline ∉ x) : lines [] (x ++ newline :: y) = x :: lines [] y ∧
    rest [] (x ++ newline :: y) = rest [] y := by
  simp [lines_append, lines_of_notMem h, lines, rest]

theorem rest_suffix : rest a x <:+ a ++ x := by
  induction x generalizing a with
  | nil => simp [rest]
  | cons c x ih =>
    rw [rest]
    split_ifs
    · exact ih.trans ⟨a ++ [c], by simp⟩
    · simpa using ih (a := a ++ [c])

theorem newline_notMem_rest (h : newline ∉ a) : newline ∉ rest a x := by
  induction x generalizing a with
  | nil => exact h
  | cons c x ih =>
    rw [rest]
    split_ifs with hc
    · exact ih List.not_mem_nil
    · exact ih (by simp [h, Ne.symm hc])

theorem length_lt_of_mem_lines {l : List UInt8} (hl : l ∈ lines a x) :
    l.length < a.length + x.length := by
  induction x generalizing a with
  | nil => cases hl
  | cons c x ih =>
    rw [lines] at hl
    split_ifs at hl
    · rcases List.mem_cons.mp hl with rfl | hl
      · simp
      · have := ih hl
        simp only [List.length_nil, List.length_cons] at *
        omega
    · have := ih hl
      simp only [List.length_append, List.length_cons, List.length_nil] at *
      omega

theorem takeWhile_lines_full (h : 1022 < a.length) : (lines a x).takeWhile fits = [] := by
  induction x generalizing a with
  | nil => rfl
  | cons c x ih =>
    rw [lines]
    split_ifs
    · simp [fits, h]
    · exact ih (by simp; omega)

/-- The lines that a `read` of `x` completes fit, as they are in the buffer. -/
theorem takeWhile_lines_read (ha : newline ∉ a) (hlen : (a ++ x).length ≤ 1023) :
    (lines a (x ++ y)).takeWhile fits =
      lines [] (a ++ x) ++ (lines (rest [] (a ++ x)) y).takeWhile fits := by
  have hlines : lines a (x ++ y) = lines [] (a ++ x) ++ lines (rest [] (a ++ x)) y := by
    simp [lines_append, lines_of_notMem ha]
  rw [hlines, List.takeWhile_append_of_pos fun l hl => ?_]
  have := length_lt_of_mem_lines hl
  simp only [fits, decide_eq_true_eq]
  simp only [List.length_nil] at this
  omega

/-! ## The loops -/

variable {d : Bytes} {pattern buf p : ℕ} {o text : List UInt8}

/-- `strchr` goes on after what is no newline. -/
theorem strchr_skip {r : Option ℕ} (h : CString d p (x ++ y)) (hn : newline ∉ x)
    (hr : Returns (fun k => strchr d k (p + x.length) newline) r) :
    Returns (fun k => strchr d k p newline) r := by
  induction x generalizing p with
  | nil => exact hr
  | cons c x ih =>
    obtain ⟨hc, h0, ht⟩ := cstring_cons.mp h
    obtain ⟨hne, hn⟩ : newline ≠ c ∧ newline ∉ x := by simpa using hn
    rw [List.length_cons, Nat.add_comm x.length, ← Nat.add_assoc] at hr
    exact (ih ht hn hr).succ fun k => by simp [strchr, hc, h0, hne.symm]

theorem selected_append {ls ls' : List (List UInt8)} :
    selected P (ls ++ ls') = selected P ls ++ selected P ls' := by
  simp [selected]

/-- The lines in the buffer are printed if they match; what follows them is found at `p'`. -/
theorem lineLoop_returns (hP : CString d pattern P) (ht : CString d p text)
    (hapart : pattern + P.length < p ∨ p + text.length < pattern) :
    ∃ d' p', Returns (fun k => lineLoop pattern k d p o)
        (d', p', o ++ selected P (lines [] text)) ∧
      p' + (rest [] text).length = p + text.length ∧ CString d' p' (rest [] text) ∧
      ∀ a, a < p ∨ p + text.length < a → d' a = d a := by
  induction hlen : text.length using Nat.strong_induction_on generalizing d p o text with
  | h n ih =>
  by_cases hn : newline ∈ text
  · obtain ⟨x, y, rfl, hx⟩ := List.eq_append_cons_of_mem hn
    rw [List.length_append, List.length_cons] at hapart hlen
    rw [(lines_line hx).1, (lines_line hx).2, ← List.singleton_append, selected_append]
    obtain ⟨hq, -, hy⟩ := cstring_cons.mp ht.append_right
    obtain ⟨n1, h1⟩ := strchr_skip (r := some (p + x.length)) ht hx
      (.const fun k => by simp [strchr, hq, newline])
    -- the text of the line, ended by a NUL for the time of the call
    obtain ⟨b, ⟨n2, h2⟩, hb⟩ := matchRe_answers
      (hP.congr fun i hi => update_of_ne (by omega) _ _) ht.cut
    set d1 : Bytes := if b then update (update d (p + x.length) 0) (p + x.length) newline
      else update d (p + x.length) 0 with hd1
    have hm : ∀ a, a ≠ p + x.length → d1 a = d a := fun a ha => by
      rw [hd1]
      split_ifs <;> simp [ha]
    obtain ⟨d', p', ⟨n3, h3⟩, hp', hstr, hsame⟩ := ih y.length (by omega) (d := d1)
      (o := o ++ selected P [x]) (hP.congr fun i hi => hm _ (by omega))
      (hy.congr fun i hi => hm _ (by omega)) (by omega) rfl
    refine ⟨d', p', .succ (g := fun k => lineLoop pattern (k + 1) d p o)
      ⟨max n1 (max n2 n3), fun k hk => ?_⟩ fun _ => rfl, by omega, hstr, fun a ha => ?_⟩
    · have h1 : strchr d k p newline = _ := h1 k (by omega)
      have h2 : matchRe _ k pattern p = _ := h2 k (by omega)
      rw [← List.append_assoc, ← h3 k (by omega)]
      simp only [lineLoop, h1, h2, Option.bind_some, hd1]
      cases b with
      | false => simp [selected, ← hb]
      | true =>
        have hline : selected P [x] = d.slice p (p + x.length + 1 - p) := by
          have := CString.slice (s := x ++ [newline]) (t := y) (by simpa using ht)
          simpa [selected, ← hb, Nat.add_assoc] using this.symm
        rw [update_idem, ← hq, update_eq_self, hline]
        rfl
    · rw [hsame a (by omega), hm a (by omega)]
  · obtain ⟨hlines, hrest⟩ := lines_of_notMem (a := []) hn
    refine ⟨d, p, ?_, by simp [hrest, hlen], by simpa [hrest] using ht, fun _ _ => rfl⟩
    rw [← text.append_nil] at ht
    obtain ⟨n, h⟩ := strchr_skip (r := none) ht hn
      (.const fun k => by simp [strchr, cstring_nil.mp ht.append_right])
    refine .succ (g := fun k => lineLoop pattern (k + 1) d p o) ⟨n, fun k hk => ?_⟩ fun _ => rfl
    have h : strchr d k p newline = some none := h k hk
    simp [lineLoop, h, hlines, selected]

theorem memmove_ofNat {t s n : ℕ} (ht : t + 1024 ≤ 2 ^ 64) (hs : s + n < t + 1024)
    (hn : n < 1024) : (User.memmove d (.ofNat t) (.ofNat s) (.ofNat n)).2 = d.move t s n := by
  have h32 : (Int32.ofNat n).toInt = n := Int32.toInt_ofNat_of_lt (by omega)
  have h64 : ∀ a < 2 ^ 64, (UInt64.ofNat a).toNat = a := fun a => UInt64.toNat_ofNat_of_lt'
  have h1 := h64 t (by omega)
  have h2 := h64 s (by omega)
  rw [User.memmove_eq (by simp [Int32.le_iff_toInt_le, h32]) (by omega) (by omega), h1, h2, h32]
  rfl

/-- The buffer, with `a` at its begin, after a `read` of `x`. -/
theorem cstring_read (ha : ∀ j (hj : j < a.length), d (buf + j) = a[j]) (h0 : 0 ∉ a ++ x) :
    CString (update (d.blit (buf + a.length) x) (buf + a.length + x.length) 0) buf (a ++ x) := by
  refine cstring_iff.mpr ⟨fun j hj => ⟨?_, fun e => h0 (e ▸ List.getElem_mem hj)⟩, ?_⟩
  · rw [List.length_append] at hj
    rw [update_of_ne (by omega), Bytes.blit]
    by_cases hlt : j < a.length
    · rw [if_neg (by omega), List.getElem_append_left hlt, ha j hlt]
    · rw [if_pos (by omega), List.getElem_append_right (by omega), Nat.add_sub_add_left]
      simp [show j - a.length < x.length by omega]
  · rw [List.length_append, ← Nat.add_assoc, update_self]

section

variable (hP : CString d pattern P) (hapart : pattern + P.length < buf ∨ buf + 1024 ≤ pattern)
  (hbuf : buf + 1024 ≤ 2 ^ 64)
include hP hapart hbuf

/-- The loop over the reads, with `a` at the begin of the buffer. -/
theorem grepLoop_returns {sizes : ℕ → ℕ} {i : ℕ}
    (ha : ∀ j (hj : j < a.length), d (buf + j) = a[j]) (hlen : a.length ≤ 1023)
    (hline : newline ∉ a) (h0 : 0 ∉ a ++ x) :
    Returns (fun k => grepLoop pattern buf sizes k i d a.length x o)
      (o ++ selected P ((lines a x).takeWhile fits)) := by
  induction hx : x.length using Nat.strong_induction_on generalizing d i o a x with
  | h len ih =>
  set n := min (sizes i + 1) (min (1024 - a.length - 1) x.length) with hn
  by_cases hz : n = 0
  · have hnone : (lines a x).takeWhile fits = [] := by
      by_cases hfull : 1022 < a.length
      · exact takeWhile_lines_full hfull
      · rw [List.length_eq_zero_iff.mp (show x.length = 0 by omega)]
        rfl
    exact .const fun k => by simp [grepLoop, ← hn, hz, hnone, selected]
  · have htake : (x.take n).length = n := by
      rw [List.length_take]
      omega
    have h0' : 0 ∉ a ++ x.take n := by
      rw [List.mem_append] at *
      exact fun h => h0 (h.imp_right List.mem_of_mem_take)
    have hstr := cstring_read ha h0'
    rw [htake] at hstr
    set text := a ++ x.take n with htext
    have hlen' : text.length = a.length + n := by rw [htext, List.length_append, htake]
    set d1 : Bytes := update (d.blit (buf + a.length) (x.take n)) (buf + a.length + n) 0 with hd1
    have hframe : ∀ a, a < buf ∨ buf + 1024 ≤ a → d1 a = d a := fun a ha => by
      rw [hd1, update_of_ne (by omega), Bytes.blit, if_neg (by omega)]
    obtain ⟨d2, p', ⟨n1, h1⟩, hp', hrest, hsame⟩ := lineLoop_returns (o := o)
      (hP.congr fun j hj => hframe _ (by omega)) hstr (by omega)
    have hsuffix : rest [] text <:+ text := rest_suffix
    have hle := hsuffix.length_le
    have hnext := ih (x.drop n).length (by simp; omega) (i := i + 1)
      (d := d2.move buf p' (rest [] text).length) (o := o ++ selected P (lines [] text))
      (a := rest [] text) (x := x.drop n) (hP.congr fun j hj => ?_) (fun j hj => ?_) (by omega)
      (newline_notMem_rest List.not_mem_nil) (fun h => ?_) rfl
    · obtain ⟨n2, h2⟩ := hnext
      refine .succ (g := fun k => grepLoop pattern buf sizes (k + 1) i d a.length x o)
        ⟨max n1 n2, fun k hk => ?_⟩ fun _ => rfl
      have h1 : lineLoop pattern k d1 buf o = _ := h1 k (by omega)
      have hm : a.length + n - (p' - buf) = (rest [] text).length := by omega
      simp only [grepLoop, ← hn, if_neg hz, ← hd1, h1, Option.bind_some, hm,
        memmove_ofNat hbuf (show p' + (rest [] text).length < buf + 1024 by omega) (by omega)]
      refine (h2 k (by omega)).trans ?_
      rw [List.append_assoc, ← selected_append,
        ← takeWhile_lines_read hline (hlen'.trans_le (by omega)), List.take_append_drop]
    · rw [Bytes.move, if_neg (by omega), hsame _ (by omega), hframe _ (by omega)]
    · have := ((cstring_iff.mp hrest).1 j hj).1
      simpa [Bytes.move, hj] using this
    · rcases List.mem_append.mp h with h | h
      · exact h0' (hsuffix.subset h)
      · exact h0 (List.mem_append_right _ (List.mem_of_mem_drop h))

variable (buf) in
theorem grep_returns (sizes : ℕ → ℕ) (h0 : 0 ∉ x) :
    Returns (fun k => grep d pattern buf sizes k x) (selected P ((lines [] x).takeWhile fits)) :=
  grepLoop_returns (a := []) (o := []) hP hapart hbuf nofun (by simp) (by simp) h0

end

/-- `grep` returns, and prints exactly the lines that match if none of them is at or after the first
line of more than 1022 characters. -/
theorem grep_correct_iff (m : Bytes) (pattern buf : ℕ) (sizes : ℕ → ℕ) (P input : List UInt8)
    (hP : CString m pattern P) (hapart : pattern + P.length < buf ∨ buf + 1024 ≤ pattern)
    (hbuf : buf + 1024 ≤ 2 ^ 64) (h0 : 0 ∉ input) :
    ∃ out, Returns (fun k => grep m pattern buf sizes k input) out ∧
      (out = selected P (lines [] input) ↔
        ∀ l ∈ (lines [] input).dropWhile fits, ¬ (readPattern P).Matches l) := by
  refine ⟨_, grep_returns buf hP hapart hbuf sizes h0, ?_⟩
  conv_lhs =>
    rw [← List.takeWhile_append_dropWhile (p := fits) (l := lines [] input), selected_append]
  simp [selected]

/-- The pattern `b` at 2000. -/
def patternMemory : Bytes := update (fun _ => 0) 2000 98

theorem cstring_patternMemory : CString patternMemory 2000 [98] := by
  simp [patternMemory]

theorem grep_correct_iff_short :
    ∃ out, Returns (fun k => grep patternMemory 2000 0 (fun _ => 0) k [97, 98, 10, 97]) out ∧
      out = selected [98] [[97, 98]] := by
  obtain ⟨out, hout, hiff⟩ := grep_correct_iff patternMemory 2000 0 (fun _ => 0) [98]
    [97, 98, 10, 97] cstring_patternMemory (by simp) (by simp) (by simp)
  exact ⟨out, hout, hiff.mpr (by simp [lines, newline, fits])⟩

/-- A line of 1023 characters before a line that matches: nothing is printed. -/
theorem grep_long_line : Returns (fun k => grep patternMemory 2000 0 (fun _ => 511) k
        (List.replicate 1023 97 ++ [10, 98, 10])) [] ∧
      selected [98] (lines [] (List.replicate 1023 97 ++ [10, 98, 10])) ≠ [] := by
  obtain ⟨x, hx⟩ : ∃ x, x = List.replicate 1023 (97 : UInt8) := ⟨_, rfl⟩
  have hlen : x.length = 1023 := by rw [hx, List.length_replicate]
  have hmem : ∀ c, c ≠ 97 → c ∉ x := fun c hc h => hc (List.eq_of_mem_replicate (hx ▸ h))
  have hlines : lines [] (x ++ [10, 98, 10]) = [x, [98]] := (lines_line (hmem _ (by decide))).1
  have hb : (readPattern [98]).Matches [98] :=
    ⟨[], [98], [], rfl, nofun, nofun, [[98]], rfl, .cons ⟨98, rfl, .inr rfl⟩ .nil⟩
  rw [← hx]
  constructor
  · have := grep_returns 0 (x := x ++ [10, 98, 10]) cstring_patternMemory
      (.inr (by simp)) (by simp) (fun _ => 511) (by simp [hmem])
    simpa [hlines, fits, hlen, selected] using this
  · simp [hlines, selected, hb]

/-- More input only adds to the output, whatever the sizes of the chunks are. -/
theorem grep_extends (sizes sizes' : ℕ → ℕ) (y : List UInt8) (hP : CString d pattern P)
    (hapart : pattern + P.length < buf ∨ buf + 1024 ≤ pattern) (hbuf : buf + 1024 ≤ 2 ^ 64)
    (h0 : 0 ∉ x ++ y) : ∃ out more,
      Returns (fun k => grep d pattern buf sizes k x) out ∧
      Returns (fun k => grep d pattern buf sizes' k (x ++ y)) (out ++ more) := by
  have hx : 0 ∉ x := fun h => h0 (List.mem_append_left y h)
  have hxy := grep_returns buf hP hapart hbuf sizes' h0
  obtain ⟨ls, hls⟩ : (lines [] x).takeWhile fits <+: (lines [] (x ++ y)).takeWhile fits := by
    rw [lines_append.1, List.takeWhile_append]
    split_ifs with h
    · exact (List.takeWhile_prefix _).trans (List.prefix_append _ _)
    · exact List.prefix_rfl
  rw [← hls, selected_append] at hxy
  exact ⟨_, _, grep_returns buf hP hapart hbuf sizes hx, hxy⟩

theorem grep_extends_two : ∃ out more,
    Returns (fun k => grep patternMemory 2000 0 (fun _ => 0) k [98, 10]) out ∧
    Returns (fun k => grep patternMemory 2000 0 (fun _ => 7) k ([98, 10] ++ [98, 10])) (out ++ more) :=
  grep_extends _ _ _ cstring_patternMemory (by simp) (by simp) (by simp)

end TatakOS.Grep
