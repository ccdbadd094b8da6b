import TatakOS.Mem.Access

/-!
# Strings from user memory

`copyinstr` copies a user string up to its null byte, page by page. It finds a string exactly if
there is one within the limit, and looks at no page behind it.
-/

namespace TatakOS.Mem

variable {H : Type} {cfg : Config} {s : Phys} {own : ℕ → Own H} {m : Bytes} {L : ℕ → ℕ}
  {r va i n : ℕ} {l : List UInt8}

/-! ## Strings -/

/-- `k` bytes from `va` on and the null byte behind them are accessible, and none of them is null. -/
def IsString (m : Bytes) (L : ℕ → ℕ) (va k : ℕ) : Prop :=
  userByte m L (va + k) = some 0 ∧ ∀ i < k, ∃ c, userByte m L (va + i) = some c ∧ c ≠ 0

theorem copyChars_eq (m : Bytes) (n p : ℕ) : ∃ k ≤ n, (∀ i < k, m (p + i) ≠ 0) ∧
    (k < n ∧ m (p + k) = 0 ∧ copyChars m n p = (m.slice p (k + 1), true) ∨
      k = n ∧ copyChars m n p = (m.slice p n, false)) := by
  have hcons : ∀ p n, m.slice p (n + 1) = m p :: m.slice (p + 1) n := by
    intro p n
    unfold Bytes.slice
    rw [List.range_succ_eq_map, List.map_cons, List.map_map]
    congr 1
    exact List.map_congr_left fun i _ => congrArg m (show p + (i + 1) = p + 1 + i by omega)
  induction n generalizing p with
  | zero => exact ⟨0, le_rfl, fun _ h => absurd h (Nat.not_lt_zero _), .inr ⟨rfl, rfl⟩⟩
  | succ n ih =>
    by_cases h0 : m p = 0
    · refine ⟨0, Nat.zero_le _, fun _ h => absurd h (Nat.not_lt_zero _), .inl ⟨by omega, h0, ?_⟩⟩
      rw [copyChars, if_pos h0, hcons, h0]
      rfl
    · obtain ⟨k, hk, hne, hcase⟩ := ih (p + 1)
      refine ⟨k + 1, by omega, fun i hi => ?_, ?_⟩
      · cases i with
        | zero => exact h0
        | succ i =>
          rw [show p + (i + 1) = p + 1 + i by omega]
          exact hne i (by omega)
      · rw [copyChars, if_neg h0, show p + (k + 1) = p + 1 + k by omega, hcons]
        rcases hcase with ⟨hlt, hz, e⟩ | ⟨rfl, e⟩
        · refine .inl ⟨by omega, hz, ?_⟩
          rw [e]
        · refine .inr ⟨rfl, ?_⟩
          rw [e, hcons]

/-- What `copyinstr` has done when it has seen `k` bytes that are not null. -/
structure Scanned (m : Bytes) (L : ℕ → ℕ) (va max : ℕ) (f : Fetched) (k : ℕ) : Prop where
  le : k ≤ max
  bytes : readUser m L va f.dst.length = some f.dst
  nonnull : ∀ i < k, ∃ c, f.dst[i]? = some c ∧ c ≠ 0
  outcome : f.ok = true ∧ k < max ∧ f.dst.length = k + 1 ∧ f.dst[k]? = some 0 ∨
    f.ok = false ∧ f.dst.length = k ∧ (k = max ∨ ¬ UserPage L ((va + k) / 4096))
  pages : ∀ p ∈ f.pages, ∃ i ≤ k, i < max ∧ p = PGROUNDDOWN (va + i)

theorem Scanned.zero (m : Bytes) (L : ℕ → ℕ) (va : ℕ) : Scanned m L va 0 {} 0 :=
  ⟨le_rfl, rfl, by simp, .inr ⟨rfl, rfl, .inl rfl⟩, by simp⟩

/-- A part without null bytes, which ends with the page or at `max`, and the rest. -/
theorem Scanned.cons {max k : ℕ} {f : Fetched} (hl : readUser m L va l.length = some l)
    (hne : ∀ i < l.length, ∃ c, l[i]? = some c ∧ c ≠ 0) (hle : l.length ≤ max) (hmax : 0 < max)
    (hf : Scanned m L (va + l.length) (max - l.length) f k) :
    Scanned m L va max
      { dst := l ++ f.dst, ok := f.ok, pages := PGROUNDDOWN va :: f.pages } (l.length + k) := by
  have hk := hf.le
  refine ⟨by omega, ?_, fun i hi => ?_, ?_, ?_⟩
  · show readUser m L va (l ++ f.dst).length = some (l ++ f.dst)
    rw [List.length_append, readUser_add, hl]
    simp [hf.bytes]
  · show ∃ c, (l ++ f.dst)[i]? = some c ∧ c ≠ 0
    by_cases hin : i < l.length
    · rw [List.getElem?_append_left hin]
      exact hne i hin
    · rw [List.getElem?_append_right (by omega)]
      exact hf.nonnull (i - l.length) (by omega)
  · show f.ok = true ∧ l.length + k < max ∧ (l ++ f.dst).length = l.length + k + 1 ∧
        (l ++ f.dst)[l.length + k]? = some 0 ∨
      f.ok = false ∧ (l ++ f.dst).length = l.length + k ∧
        (l.length + k = max ∨ ¬ UserPage L ((va + (l.length + k)) / 4096))
    rw [List.length_append, List.getElem?_append_right (by omega), Nat.add_sub_cancel_left,
      ← Nat.add_assoc]
    rcases hf.outcome with ⟨h1, h2, h3, h4⟩ | ⟨h1, h2, h3⟩
    · exact .inl ⟨h1, by omega, by omega, h4⟩
    · exact .inr ⟨h1, by omega, h3.imp (fun e => by omega) id⟩
  · intro p hp
    rcases List.mem_cons.mp hp with rfl | hp
    · exact ⟨0, Nat.zero_le _, hmax, rfl⟩
    · obtain ⟨i, hik, hi, rfl⟩ := hf.pages p hp
      exact ⟨l.length + i, by omega, by omega, by rw [Nat.add_assoc]⟩

section Round

variable {fuel max : ℕ} {f : Fetched}

variable (h : Tree s.mem own r L) (hmax : max ≠ 0)
include h hmax

theorem copyinstrLoop_none (hp : ¬ UserPage L (va / 4096)) :
    copyinstrLoop cfg (4096 * r) (fuel + 1) va max s = .ok ({ pages := [PGROUNDDOWN va] }, s) := by
  rw [copyinstrLoop, if_neg hmax, pgrounddown_eq]
  show (walkaddr cfg (4096 * r) (4096 * (va / 4096)) s >>= _) = _
  rw [walkaddr_eq h, userAddr_none hp]
  rfl

variable (hp : UserPage L (va / 4096)) (hn : min (PGSIZE - va % 4096) max = n)
include hp hn

/-- One round of `copyinstr` in a page that has a null byte, and in one that has none. -/
theorem copyinstrLoop_null
    (e : copyChars s.mem n (4096 * (L (va / 4096) / 1024) + va % 4096) = (l, true)) :
    copyinstrLoop cfg (4096 * r) (fuel + 1) va max s =
      .ok ({ dst := l, ok := true, pages := [PGROUNDDOWN va] }, s) := by
  subst hn
  rw [show va % 4096 = va - 4096 * (va / 4096) by omega] at e
  rw [copyinstrLoop, if_neg hmax, pgrounddown_eq]
  show (walkaddr cfg (4096 * r) (4096 * (va / 4096)) s >>= _) = _
  rw [walkaddr_eq h, userAddr_page hp]
  show (if (copyChars s.mem _ _).2 = true then _ else _ : Vm Fetched) s = _
  rw [e]
  rfl

theorem copyinstrLoop_next
    (e : copyChars s.mem n (4096 * (L (va / 4096) / 1024) + va % 4096) = (l, false))
    (hf : copyinstrLoop cfg (4096 * r) fuel (4096 * (va / 4096) + PGSIZE) (max - n) s =
      .ok (f, s)) :
    copyinstrLoop cfg (4096 * r) (fuel + 1) va max s =
      .ok ({ dst := l ++ f.dst, ok := f.ok, pages := PGROUNDDOWN va :: f.pages }, s) := by
  subst hn
  rw [show va % 4096 = va - 4096 * (va / 4096) by omega] at e hf
  rw [copyinstrLoop, if_neg hmax, pgrounddown_eq]
  show (walkaddr cfg (4096 * r) (4096 * (va / 4096)) s >>= _) = _
  rw [walkaddr_eq h, userAddr_page hp]
  show (if (copyChars s.mem _ _).2 = true then _ else _ : Vm Fetched) s = _
  rw [e]
  show (copyinstrLoop cfg (4096 * r) fuel (4096 * (va / 4096) + PGSIZE) _ s >>= _) = _
  rw [hf]
  rfl

end Round

theorem slice_getElem? (m : Bytes) (a : ℕ) (hi : i < n) : (m.slice a n)[i]? = some (m (a + i)) := by
  simp [Bytes.slice, hi]

theorem slice_length (m : Bytes) (a n : ℕ) : (m.slice a n).length = n := by
  simp [Bytes.slice]

theorem Scanned.of_zero {k : ℕ} {f : Fetched} (h : Scanned m L va 0 f k) (va' : ℕ) :
    Scanned m L va' 0 f k := by
  have hk := h.le
  obtain ⟨hok, hlen⟩ : f.ok = false ∧ f.dst.length = k := by
    rcases h.outcome with ⟨-, h2, -⟩ | ⟨h1, h2, -⟩
    · omega
    · exact ⟨h1, h2⟩
  refine ⟨hk, ?_, h.nonnull, .inr ⟨hok, hlen, .inl (by omega)⟩, fun p hp => ?_⟩
  · rw [List.length_eq_zero_iff.mp (by omega : f.dst.length = 0)]
    rfl
  · obtain ⟨i, -, hi, -⟩ := h.pages p hp
    omega

theorem copyinstr_eq (h : Tree s.mem own r L) (va max : ℕ) :
    ∃ f k, copyinstr cfg (4096 * r) va max s = .ok (f, s) ∧ Scanned s.mem L va max f k := by
  suffices hloop : ∀ fuel va max, max ≤ fuel →
      ∃ f k, copyinstrLoop cfg (4096 * r) fuel va max s = .ok (f, s) ∧
        Scanned s.mem L va max f k from hloop max va max le_rfl
  intro fuel
  induction fuel with
  | zero =>
    intro va max hle
    obtain rfl : max = 0 := by omega
    exact ⟨_, 0, rfl, Scanned.zero _ _ _⟩
  | succ fuel ih =>
    intro va max hle
    by_cases hmax : max = 0
    · subst hmax
      exact ⟨_, 0, rfl, Scanned.zero _ _ _⟩
    have hmax' : 0 < max := by omega
    have hfirst : ∀ p ∈ [PGROUNDDOWN va], ∀ k : ℕ, ∃ i ≤ k, i < max ∧ p = PGROUNDDOWN (va + i) := by
      intro p hp k
      obtain rfl := List.mem_singleton.mp hp
      exact ⟨0, Nat.zero_le _, hmax', rfl⟩
    by_cases hp : UserPage L (va / 4096)
    · -- the part in this page
      obtain ⟨n, hn⟩ : ∃ n, min (PGSIZE - va % 4096) max = n := ⟨_, rfl⟩
      have hn' : 0 < n ∧ n ≤ max ∧ va % 4096 + n ≤ 4096 ∧
          (n < max → va + n = 4096 * (va / 4096) + PGSIZE) := by
        unfold PGSIZE at hn ⊢
        omega
      obtain ⟨k, hk, hne, ⟨hlt, hz, e⟩ | ⟨hkn, e⟩⟩ :=
        copyChars_eq s.mem n (4096 * (L (va / 4096) / 1024) + va % 4096)
      · refine ⟨_, k, copyinstrLoop_null h hmax hp hn e, by omega, ?_, fun i hi => ?_, ?_, ?_⟩
        · rw [slice_length]
          exact readUser_page hp (by omega)
        · exact ⟨_, slice_getElem? _ _ (by omega), hne i hi⟩
        · refine .inl ⟨rfl, by omega, slice_length _ _ _, ?_⟩
          rw [slice_getElem? _ _ (by omega), hz]
        · exact fun p hp => hfirst p hp k
      · obtain ⟨f, k', hf, hscan⟩ := ih (4096 * (va / 4096) + PGSIZE) (max - n) (by omega)
        have hscan' : Scanned s.mem L (va + n) (max - n) f k' := by
          by_cases hc : n < max
          · rwa [hn'.2.2.2 hc]
          · rw [show max - n = 0 by omega] at hscan ⊢
            exact hscan.of_zero _
        refine ⟨_, _, copyinstrLoop_next h hmax hp hn e hf, Scanned.cons (k := k') ?_ ?_ ?_ hmax' ?_⟩
        · rw [slice_length]
          exact readUser_page hp (by omega)
        · intro i hi
          rw [slice_length] at hi
          exact ⟨_, slice_getElem? _ _ hi, hne i (by omega)⟩
        · rw [slice_length]
          omega
        · rwa [slice_length]
    · refine ⟨_, 0, copyinstrLoop_none h hmax hp, Nat.zero_le _, rfl, by simp, ?_, ?_⟩
      · exact .inr ⟨rfl, rfl, .inr hp⟩
      · exact fun p hp => hfirst p hp 0

theorem Scanned.of_isString {max k k' : ℕ} {f : Fetched} (h : Scanned m L va max f k)
    (hs : IsString m L va k') (hk' : k' < max) : k = k' ∧ f.ok = true := by
  have hget := (readUser_eq_some.mp h.bytes).2
  have hlen : k ≤ f.dst.length := by
    rcases h.outcome with ⟨-, -, e, -⟩ | ⟨-, e, -⟩ <;> omega
  have heq : k = k' := by
    rcases Nat.lt_trichotomy k' k with hlt | e | hlt
    · obtain ⟨c, hc, hne⟩ := h.nonnull k' hlt
      have h0 := hs.1
      rw [hget k' (by omega), hc, Option.some.injEq] at h0
      exact absurd h0 hne
    · exact e.symm
    · obtain ⟨c, hc, hne⟩ := hs.2 k hlt
      rcases h.outcome with ⟨-, -, e, h0⟩ | ⟨-, -, hmax | hno⟩
      · rw [hget k (by omega), h0, Option.some.injEq] at hc
        exact absurd hc.symm hne
      · omega
      · exact absurd (userByte_isSome.mp (by rw [hc]; rfl)) hno
  subst heq
  refine ⟨rfl, ?_⟩
  rcases h.outcome with ⟨hok, -⟩ | ⟨-, -, hmax | hno⟩
  · exact hok
  · omega
  · exact absurd (userByte_isSome.mp (by rw [hs.1]; rfl)) hno

theorem Scanned.found {max k : ℕ} {f : Fetched} (h : Scanned m L va max f k)
    (hok : f.ok = true) : k < max ∧ f.dst.length = k + 1 ∧ f.dst[k]? = some 0 := by
  rcases h.outcome with ⟨-, h⟩ | ⟨hno, -⟩
  · exact h
  · rw [hok] at hno
    cases hno

theorem Scanned.isString {max k : ℕ} {f : Fetched} (h : Scanned m L va max f k)
    (hok : f.ok = true) : k < max ∧ IsString m L va k ∧ f.dst.length = k + 1 := by
  have hget := (readUser_eq_some.mp h.bytes).2
  obtain ⟨hlt, hlen, h0⟩ := h.found hok
  refine ⟨hlt, ⟨by rw [hget k (by omega), h0], fun i hi => ?_⟩, hlen⟩
  obtain ⟨c, hc, hne⟩ := h.nonnull i hi
  exact ⟨c, by rw [hget i (by omega), hc], hne⟩

theorem Scanned.strlen_eq {max k : ℕ} {f : Fetched} (h : Scanned m L va max f k)
    (hok : f.ok = true) : strlen f.dst = k := by
  obtain ⟨hlt, hlen, h0⟩ := h.found hok
  have hsplit : f.dst = f.dst.take k ++ [0] := by
    have hk : k < f.dst.length := by omega
    have e : f.dst[k] = 0 := by
      rw [List.getElem?_eq_getElem hk, Option.some.injEq] at h0
      exact h0
    rw [← e, ← List.take_succ_eq_append_getElem hk, ← hlen, List.take_length]
  have hall : ∀ b ∈ f.dst.take k, decide (b ≠ 0) = true := by
    intro b hb
    obtain ⟨i, hi, rfl⟩ := List.mem_iff_getElem.mp hb
    rw [List.length_take] at hi
    obtain ⟨c, hc, hne⟩ := h.nonnull i (by omega)
    rw [List.getElem?_eq_getElem (by omega), Option.some.injEq] at hc
    rw [List.getElem_take, hc]
    simpa using hne
  have htake : (f.dst.take k).length = k := by
    rw [List.length_take]
    omega
  have hwhile : (f.dst.take k ++ [0]).takeWhile (· ≠ 0) = f.dst.take k := by
    rw [List.takeWhile_append_of_pos hall]
    simp
  unfold strlen
  rw [hsplit, hwhile, htake]

/-- `copyinstr` returns 0 exactly if there is an accessible string within `max` bytes. It then has
copied that string with its null byte, so that `fetchstr` returns the length. In any case it writes
no more than `max` bytes, and looks up no page behind the string or behind `max` bytes. -/
theorem copyinstr_string (h : Tree s.mem own r L) (va max : ℕ) :
    ∃ f, copyinstr cfg (4096 * r) va max s = .ok (f, s) ∧
      (f.ok = true ↔ ∃ k < max, IsString s.mem L va k) ∧
      (∀ k < max, IsString s.mem L va k → readUser s.mem L va (k + 1) = some f.dst ∧
        fetchstr cfg (4096 * r) va max s = .ok (some (k, f.dst.take k), s)) ∧
      f.dst.length ≤ max ∧
      ∀ p ∈ f.pages, ∃ i < max, p = PGROUNDDOWN (va + i) ∧ ∀ k, IsString s.mem L va k → i ≤ k := by
  obtain ⟨f, k, e, hscan⟩ := copyinstr_eq h va max
  refine ⟨f, e, ⟨fun hok => ?_, fun ⟨k', hk', hs⟩ => (hscan.of_isString hs hk').2⟩,
    fun k' hk' hs => ?_, ?_, fun p hp => ?_⟩
  · obtain ⟨hlt, hs, -⟩ := hscan.isString hok
    exact ⟨k, hlt, hs⟩
  · obtain ⟨rfl, hok⟩ := hscan.of_isString hs hk'
    obtain ⟨-, -, hlen⟩ := hscan.isString hok
    refine ⟨by rw [← hlen]; exact hscan.bytes, ?_⟩
    unfold fetchstr
    show (copyinstr cfg (4096 * r) va max s >>= _) = _
    rw [e]
    show (if f.ok = true then _ else _ : Vm (Option (ℕ × List UInt8))) s = _
    rw [if_pos hok, hscan.strlen_eq hok]
    rfl
  · rcases hscan.outcome with ⟨-, h1, h2, -⟩ | ⟨-, h2, -⟩
    · omega
    · have := hscan.le
      omega
  · obtain ⟨i, hik, hi, rfl⟩ := hscan.pages p hp
    refine ⟨i, hi, rfl, fun k' hs => ?_⟩
    by_cases hk' : k' < max
    · obtain ⟨rfl, -⟩ := hscan.of_isString hs hk'
      exact hik
    · omega

/-- A second page is mapped, and there is `hi` across the border. -/
def borderMem : Bytes :=
  ((oneMem.set (4096 * 3 + 8 * 1) 8 (1024 * 7 + 31)).set (4096 * 4 + 4095) 1 104).set (4096 * 7) 1 105

def borderLeaf : ℕ → ℕ := Function.update oneLeaf (512 * (512 * (512 * 0 + 0) + 0) + 1)
  (1024 * 7 + 31)

theorem borderTree : Tree borderMem oneOwn 1 borderLeaf := by
  have hnode : ∀ n l p, oneOwn n = .node 1 l p → n ≤ 3 := by
    intro n l p hn
    by_contra hlt
    unfold oneOwn at hn
    rw [Function.update_of_ne (by omega), Function.update_of_ne (by omega),
      Function.update_of_ne (by omega)] at hn
    cases hn
  have h2 := oneTree.set_leaf (n := 3) (i := 1) (Function.update_self ..) (by decide)
    (fun n _ _ _ e => samePage_set (w := 1024 * 7 + 31) e) (fun j _ e => entry_set_ne e)
    entry_set_same (.inr (by decide))
  refine h2.congr (fun _ _ _ => Iff.rfl) fun n l p hn a ha => ?_
  have := hnode n l p hn
  exact (Bytes.set_of_not_mem (by omega)).trans (Bytes.set_of_not_mem (by omega))

theorem copyinstr_string_border : fetchstr smallConfig (4096 * 1) 4095 8 ⟨borderMem, 0, 0⟩ =
    .ok (some (2, [104, 105]), ⟨borderMem, 0, 0⟩) := by
  have hbytes : readUser borderMem borderLeaf 4095 3 = some [104, 105, 0] := by decide +kernel
  have hget := (readUser_eq_some.mp hbytes).2
  have hs : IsString borderMem borderLeaf 4095 2 := by
    refine ⟨hget 2 (by decide), fun i hi => ?_⟩
    obtain rfl | rfl : i = 0 ∨ i = 1 := by omega
    · exact ⟨104, hget 0 (by decide), by decide⟩
    · exact ⟨105, hget 1 (by decide), by decide⟩
  obtain ⟨f, -, -, hstr, -⟩ := copyinstr_string (s := ⟨borderMem, 0, 0⟩) borderTree 4095 8
  obtain ⟨hread, hfetch⟩ := hstr 2 (by decide) hs
  rw [hbytes] at hread
  rwa [← Option.some.inj hread] at hfetch

end TatakOS.Mem
