import Mathlib.Data.Nat.Digits.Lemmas
import Mathlib.Data.UInt

/-!
# `printf` of the user library

`vprintf` of `src/user/lib/printf.c` walks over its format with a state, collects the digits of a
number in a buffer of sixteen characters and writes it from its end. `Renders` says what a format
and its arguments call for. The two agree exactly if the argument of every `%l` fits in 32 bits.
-/

namespace TatakOS.Printf

/-! ## The code -/

/-- `"0123456789ABCDEF"`. -/
def digits : List UInt8 := [48, 49, 50, 51, 52, 53, 54, 55, 56, 57, 65, 66, 67, 68, 69, 70]

def digit (n : ℕ) : UInt8 := digits.getD n 0

/-- The loop that stores the digits. `room` is what is left of the buffer, `buf` what it holds,
last character first; `none` is a store past its end. -/
def digitLoop (base : UInt32) : (room : ℕ) → UInt32 → List UInt8 → Option (List UInt8)
  | 0, _, _ => none
  | room + 1, x, buf =>
    if x / base ≠ 0 then digitLoop base room (x / base) (digit (x % base).toNat :: buf)
    else some (digit (x % base).toNat :: buf)

def printint (xx : Int32) (base : UInt32) (sgn : Bool) : Option (List UInt8) := do
  let neg := sgn && xx < 0
  let x := if neg then (-xx).toUInt32 else xx.toUInt32
  let buf ← digitLoop base 16 x []
  if neg then if buf.length < 16 then some (45 :: buf) else none
  else some buf

def ptrLoop : ℕ → UInt64 → List UInt8
  | 0, _ => []
  | n + 1, x => digit (x >>> 60).toNat :: ptrLoop n (x <<< 4)

def printptr (x : UInt64) : List UInt8 := [48, 120] ++ ptrLoop 16 x

/-- What `va_arg` can find. A string is the list of its characters, `none` the null pointer. -/
inductive Arg
  | word (w : UInt32)
  | long (v : UInt64)
  | str (s : Option (List UInt8))
  deriving DecidableEq, Repr

/-- `"(null)"`. -/
def null : List UInt8 := [40, 110, 117, 108, 108, 41]

def vaWord : List Arg → Option (UInt32 × List Arg)
  | .word w :: ap => some (w, ap)
  | _ => none

def vaLong : List Arg → Option (UInt64 × List Arg)
  | .long v :: ap => some (v, ap)
  | _ => none

def vaStr : List Arg → Option (Option (List UInt8) × List Arg)
  | .str s :: ap => some (s, ap)
  | _ => none

/-- The character after a `%`: what is written, and the arguments that are left. -/
def convert (c : UInt8) (ap : List Arg) : Option (List UInt8 × List Arg) :=
  if c = 100 then do let (w, ap) ← vaWord ap; return (← printint w.toInt32 10 true, ap)
  else if c = 108 then do
    -- a `uint64` is passed for an `int`
    let (v, ap) ← vaLong ap; return (← printint v.toUInt32.toInt32 10 false, ap)
  else if c = 120 then do let (w, ap) ← vaWord ap; return (← printint w.toInt32 16 false, ap)
  else if c = 112 then do let (v, ap) ← vaLong ap; return (printptr v, ap)
  else if c = 115 then do let (s, ap) ← vaStr ap; return (s.getD null, ap)
  else if c = 99 then do let (w, ap) ← vaWord ap; return ([w.toUInt8], ap)
  else if c = 37 then some ([c], ap)
  else some ([37, c], ap)

/-- The loop over the format; `state` is set after a `%`. -/
def vprintf : (state : Bool) → List UInt8 → List Arg → Option (List UInt8)
  | _, [], _ => some []
  | false, c :: fmt, ap =>
    if c = 37 then vprintf true fmt ap else (vprintf false fmt ap).map (c :: ·)
  | true, c :: fmt, ap =>
    (convert c ap).bind fun (w, ap) => (vprintf false fmt ap).map (w ++ ·)

/-! ## What a format calls for -/

/-- The numeral of `n` to base `b`, without leading zeros. -/
def numeral (b n : ℕ) : List UInt8 :=
  ((if n = 0 then [0] else Nat.digits b n).map digit).reverse

def signed (z : ℤ) : List UInt8 := (if z < 0 then [45] else []) ++ numeral 10 z.natAbs

/-- The sixteen hexadecimal digits of `n`. -/
def sixteen (n : ℕ) : List UInt8 := (List.range 16).map fun i => digit (n / 16 ^ (15 - i) % 16)

/-- `out` is what `fmt` and its arguments, of the types it names, call for. A `%` that ends the
format calls for nothing, and an unknown letter stands for itself and its `%`. -/
inductive Renders : List UInt8 → List Arg → List UInt8 → Prop
  | nil : Renders [] ap []
  | stray : Renders [37] ap []
  | literal : c ≠ 37 → Renders fmt ap out → Renders (c :: fmt) ap (c :: out)
  | int (w : UInt32) : Renders fmt ap out →
    Renders (37 :: 100 :: fmt) (.word w :: ap) (signed w.toInt32.toInt ++ out)
  | long (v : UInt64) : Renders fmt ap out →
    Renders (37 :: 108 :: fmt) (.long v :: ap) (numeral 10 v.toNat ++ out)
  | hex (w : UInt32) : Renders fmt ap out →
    Renders (37 :: 120 :: fmt) (.word w :: ap) (numeral 16 w.toNat ++ out)
  | ptr (v : UInt64) : Renders fmt ap out →
    Renders (37 :: 112 :: fmt) (.long v :: ap) ([48, 120] ++ sixteen v.toNat ++ out)
  | str (s : Option (List UInt8)) : Renders fmt ap out →
    Renders (37 :: 115 :: fmt) (.str s :: ap) (s.getD null ++ out)
  | char (w : UInt32) : Renders fmt ap out →
    Renders (37 :: 99 :: fmt) (.word w :: ap) ([w.toUInt8] ++ out)
  | percent : Renders fmt ap out → Renders (37 :: 37 :: fmt) ap ([37] ++ out)
  | other : k ∉ [100, 108, 120, 112, 115, 99, 37] → Renders fmt ap out →
    Renders (37 :: k :: fmt) ap ([37, k] ++ out)

/-- The arguments that the `%l` of a format take. -/
def longs : List UInt8 → List Arg → List Arg
  | c :: k :: fmt, ap =>
    if c ≠ 37 then longs (k :: fmt) ap
    else if k = 108 then ap.take 1 ++ longs fmt ap.tail
    else if k ∈ [100, 120, 112, 115, 99] then longs fmt ap.tail
    else longs fmt ap
  | _, _ => []

/-! ## Numerals -/

variable {b n m room : ℕ} {c k : UInt8} {fmt out buf : List UInt8} {ap ap' : List Arg}

/-- A numeral read digit by digit. -/
def valueOf (b : ℕ) (l : List UInt8) : ℕ := l.foldl (fun n c => n * b + digits.idxOf c) 0

theorem idxOf_digit : ∀ n < 16, digits.idxOf (digit n) = n := by decide

theorem valueOf_reverse {ds : List ℕ} (h : ∀ d ∈ ds, d < 16) :
    valueOf b (ds.map digit).reverse = Nat.ofDigits b ds := by
  induction ds with
  | nil => rfl
  | cons d ds ih =>
    have hd := idxOf_digit d (h d (by simp))
    have hds := ih fun e he => h e (by simp [he])
    rw [valueOf, List.foldl_reverse] at *
    rw [List.map_cons, List.foldr_cons, hds, hd, Nat.ofDigits_cons]
    ring

/-- A numeral reads back as its number. -/
theorem valueOf_numeral (hb : 1 < b) (h16 : b ≤ 16) : valueOf b (numeral b n) = n := by
  unfold numeral
  split_ifs with h0
  · rw [valueOf_reverse (by simp), h0, Nat.ofDigits_singleton]
  · rw [valueOf_reverse fun d hd => (Nat.digits_lt_base hb hd).trans_le h16, Nat.ofDigits_digits]

theorem numeral_eq (hb : 1 < b) :
    numeral b n = (if n / b = 0 then [] else numeral b (n / b)) ++ [digit (n % b)] := by
  rcases Nat.eq_zero_or_pos n with rfl | h
  · simp [numeral]
  · rw [numeral, if_neg h.ne', Nat.digits_def' hb h, List.map_cons, List.reverse_cons]
    split_ifs with h0 <;> simp [numeral, h0]

theorem length_numeral_mono (h : n ≤ m) : (numeral b n).length ≤ (numeral b m).length := by
  have hle := Nat.le_length_digits_le b n m h
  unfold numeral
  split_ifs with h0 h1
  · rfl
  · simpa [Nat.one_le_iff_ne_zero, Nat.digits_eq_nil_iff_eq_zero] using h1
  · omega
  · simpa using hle

theorem length_numeral_lt (h : n < 2 ^ 32) : (numeral 10 n).length < 16 := by
  have hlen := length_numeral_mono (b := 10) (m := 10 ^ 14) (n := n) (by omega)
  have hmax : (numeral 10 (10 ^ 14)).length = 15 := by decide +kernel
  omega

/-! ## The printers -/

theorem digitLoop_eq {base : UInt32} (hb : 1 < base.toNat) {x : UInt32}
    (hx : x.toNat < base.toNat ^ (room + 1)) :
    digitLoop base (room + 1) x buf = some (numeral base.toNat x.toNat ++ buf) := by
  induction room generalizing x buf with
  | zero =>
    have h0 : x.toNat / base.toNat = 0 := Nat.div_eq_of_lt (by simpa using hx)
    simp [digitLoop, numeral_eq hb, ← UInt32.toNat_inj, h0]
  | succ room ih =>
    rw [digitLoop, numeral_eq hb]
    have hdiv : (x / base).toNat < base.toNat ^ (room + 1) := by
      rw [UInt32.toNat_div]
      exact Nat.div_lt_of_lt_mul (by rwa [pow_succ'] at hx)
    simp only [ne_eq, ← UInt32.toNat_inj, UInt32.toNat_div, UInt32.toNat_mod] at *
    split_ifs with h0 <;> simp_all

/-- Sixteen characters are enough for 32 bits. -/
theorem digitLoop_start {base : UInt32} (hb : 1 < base.toNat) (h16 : 2 ^ 32 ≤ base.toNat ^ 16)
    (x : UInt32) : digitLoop base 16 x [] = some (numeral base.toNat x.toNat) := by
  rw [digitLoop_eq hb (x.toNat_lt.trans_le h16), List.append_nil]

theorem printint_unsigned (xx : Int32) {base : UInt32} (hb : 1 < base.toNat)
    (h16 : 2 ^ 32 ≤ base.toNat ^ 16) :
    printint xx base false = some (numeral base.toNat xx.toUInt32.toNat) := by
  simp [printint, digitLoop_start hb h16]

/-- Also for the most negative `int`, which is its own negation. -/
theorem natAbs_toInt (v : BitVec 32) :
    v.toInt.natAbs = if v.toInt < 0 then (-v).toNat else v.toNat := by
  have hv := v.isLt
  have hneg := BitVec.toNat_neg v
  rw [BitVec.toInt_eq_toNat_cond]
  split_ifs <;> omega

theorem printint_signed (xx : Int32) : printint xx 10 true = some (signed xx.toInt) := by
  have hlt : xx < 0 ↔ xx.toInt < 0 := by simp [Int32.lt_iff_toInt_lt]
  have habs : xx.toInt.natAbs = if xx.toInt < 0 then (-xx).toUInt32.toNat else xx.toUInt32.toNat :=
    natAbs_toInt xx.toBitVec
  rw [signed, habs]
  split_ifs with h
  · have hlen := length_numeral_lt (-xx).toUInt32.toNat_lt
    simpa [printint, hlt, h, digitLoop_start] using hlen
  · simp [printint, hlt, h, digitLoop_start]

theorem ptrLoop_eq (x : UInt64) (hn : n ≤ 16) :
    ptrLoop n x = (List.range n).map fun i => digit (x.toNat / 16 ^ (15 - i) % 16) := by
  induction n generalizing x with
  | zero => rfl
  | succ n ih =>
    rw [ptrLoop, ih _ (by omega), List.range_succ_eq_map, List.map_cons, List.map_map]
    have hx := x.toNat_lt
    congr 1
    · congr 1
      rw [UInt64.toNat_shiftRight]
      simp [Nat.shiftRight_eq_div_pow]
      omega
    · refine List.map_congr_left fun i hi => ?_
      have hi : i < 15 := by have := List.mem_range.mp hi; omega
      obtain ⟨j, hj⟩ : ∃ j, 15 - i = j + 1 := ⟨14 - i, by omega⟩
      have hshift : (x <<< 4).toNat = x.toNat * 16 % (16 ^ (j + 1) * 16 ^ (15 - j)) := by
        rw [← pow_add, show j + 1 + (15 - j) = 16 by omega]
        simp [Nat.shiftLeft_eq]
      rw [Function.comp_apply, hshift, hj, show 15 - (i + 1) = j by omega,
        Nat.mod_mul_right_div_self, Nat.mod_mod_of_dvd _ (dvd_pow_self 16 (by omega)), pow_succ,
        Nat.mul_div_mul_right _ _ (by omega)]

/-! ## The walk over the format -/

/-- The code writes something no longer than `out`, which is `out` if the condition holds. -/
def Agrees (fmt : List UInt8) (ap : List Arg) (out : List UInt8) : Prop :=
  ∃ o, vprintf false fmt ap = some o ∧ o.length ≤ out.length ∧
    (o = out ↔ ∀ v, .long v ∈ longs fmt ap → v.toNat < 2 ^ 32)

theorem vprintf_conversion : vprintf false (37 :: k :: fmt) ap =
    (convert k ap).bind fun (w, ap) => (vprintf false fmt ap).map (w ++ ·) := rfl

theorem longs_literal (h : c ≠ 37) : longs (c :: fmt) ap = longs fmt ap := by
  cases fmt <;> simp [longs, h]

/-- A conversion that the code renders faithfully. -/
theorem Agrees.convert {w : List UInt8} (h : Agrees fmt ap' out) (hc : convert k ap = some (w, ap'))
    (hl : longs (37 :: k :: fmt) ap = longs fmt ap' := by simp [longs]) :
    Agrees (37 :: k :: fmt) ap (w ++ out) := by
  obtain ⟨o, ho, hlen, hiff⟩ := h
  refine ⟨w ++ o, by simp [vprintf_conversion, hc, ho], by simpa using hlen, ?_⟩
  rw [List.append_cancel_left_eq, hl, hiff]

theorem Agrees.long (v : UInt64) (h : Agrees fmt ap out) :
    Agrees (37 :: 108 :: fmt) (.long v :: ap) (numeral 10 v.toNat ++ out) := by
  obtain ⟨o, ho, hlen, hiff⟩ := h
  have hw : Printf.convert 108 (.long v :: ap) = some (numeral 10 (v.toNat % 2 ^ 32), ap) := by
    simp [Printf.convert, vaLong, printint_unsigned]
  have hle := length_numeral_mono (b := 10) (Nat.mod_le v.toNat (2 ^ 32))
  refine ⟨numeral 10 (v.toNat % 2 ^ 32) ++ o, by simp [vprintf_conversion, hw, ho],
    by simpa using Nat.add_le_add hle hlen, ?_⟩
  have hlongs : (∀ u, .long u ∈ longs (37 :: 108 :: fmt) (.long v :: ap) → u.toNat < 2 ^ 32) ↔
      v.toNat < 2 ^ 32 ∧ o = out := by
    simp [longs, hiff]
  rw [hlongs]
  constructor
  · -- neither part is longer than it should be, so both have the right length
    intro e
    have hsum := congrArg List.length e
    simp only [List.length_append] at hsum
    obtain ⟨hn, rfl⟩ := List.append_inj e (by omega)
    have hv := congrArg (valueOf 10) hn
    simp only [valueOf_numeral (b := 10) (by simp) (by simp)] at hv
    exact ⟨by omega, rfl⟩
  · rintro ⟨hv, rfl⟩
    rw [Nat.mod_eq_of_lt hv]

theorem Renders.agrees (h : Renders fmt ap out) : Agrees fmt ap out := by
  induction h with
  | nil | stray => exact ⟨[], by simp [vprintf], le_rfl, by simp [longs]⟩
  | @literal c _ _ _ hc _ ih =>
    obtain ⟨o, ho, hlen, hiff⟩ := ih
    refine ⟨c :: o, by simp [vprintf, hc, ho], by simpa using hlen, ?_⟩
    rw [longs_literal hc, List.cons_inj_right, hiff]
  | int w _ ih => exact ih.convert (by simp [Printf.convert, vaWord, printint_signed])
  | long v _ ih => exact ih.long v
  | hex w _ ih => exact ih.convert (by simp [Printf.convert, vaWord, printint_unsigned])
  | ptr v _ ih =>
    exact ih.convert (by simp [Printf.convert, vaLong, printptr, ptrLoop_eq, sixteen])
  | str s _ ih => exact ih.convert (by simp [Printf.convert, vaStr])
  | char w _ ih => exact ih.convert (by simp [Printf.convert, vaWord])
  | percent _ ih => exact ih.convert (by simp [Printf.convert])
  | other hk _ ih => exact ih.convert (by simp_all [Printf.convert]) (by simp_all [longs])

/-- `printf` never overruns its buffer, and its output is the one called for exactly if every
argument of a `%l` fits in 32 bits. -/
theorem vprintf_correct_iff (h : Renders fmt ap out) :
    vprintf false fmt ap ≠ none ∧ (vprintf false fmt ap = some out ↔
      ∀ v, .long v ∈ longs fmt ap → v.toNat < 2 ^ 32) := by
  obtain ⟨o, ho, -, hiff⟩ := h.agrees
  exact ⟨by simp [ho], by rw [ho, Option.some_inj, hiff]⟩

/-- The most negative `int`, `"%d\n"`. -/
theorem vprintf_correct_iff_min : vprintf false [37, 100, 10] [.word 0x80000000] =
      some [45, 50, 49, 52, 55, 52, 56, 51, 54, 52, 56, 10] := by
  have h : Renders [37, 100, 10] [.word 0x80000000] _ := .int _ (.literal (by decide) .nil)
  exact (vprintf_correct_iff h).2.mpr (by simp [longs])

/-- The size of a file of 4 GiB is printed as 0. -/
theorem vprintf_long_wraps :
    Renders [37, 108] [.long (2 ^ 32)] [52, 50, 57, 52, 57, 54, 55, 50, 57, 54] ∧
      vprintf false [37, 108] [.long (2 ^ 32)] = some [48] :=
  ⟨.long (2 ^ 32) .nil, by decide +kernel⟩

end TatakOS.Printf
