import TatakOS.Mem.Walk

/-!
# Copies between the kernel and a user program

`userAddr L va` is the physical address of the user address `va` when the leaf entries are `L`, if
there is one. `copyout`, `copyin` and `copyinstr` go byte by byte through `userAddr`, whatever
physical pages follow each other, and stop at the first page that the user may not access.
-/

namespace TatakOS.Mem

open Function

/-- The virtual page is below `MAXVA` and mapped with `PTE_V` and `PTE_U` to a physical page. -/
def UserPage (L : ℕ → ℕ) (v : ℕ) : Prop :=
  4096 * v < MAXVA ∧ L v &&& PTE_V ≠ 0 ∧ L v &&& PTE_U ≠ 0 ∧ PTE2PA (L v) ≠ 0

instance (L : ℕ → ℕ) (v : ℕ) : Decidable (UserPage L v) :=
  inferInstanceAs (Decidable (_ ∧ _ ∧ _ ∧ _))

def userAddr (L : ℕ → ℕ) (va : ℕ) : Option ℕ :=
  if UserPage L (va / 4096) then some (PTE2PA (L (va / 4096)) + va % 4096) else none

/-- The byte that a user program reads at `va`. -/
def userByte (m : Bytes) (L : ℕ → ℕ) (va : ℕ) : Option UInt8 := (userAddr L va).map m

/-- The page table in page `r` has the leaf entries `L`, and no part of it is in a user page. -/
structure PageTable {H : Type} (m : Bytes) (own : ℕ → Own H) (r : ℕ) (L : ℕ → ℕ) : Prop where
  tree : Tree m own r L
  apart : ∀ v, UserPage L v → ∀ l p, own (PTE2PA (L v) / 4096) ≠ .node r l p

/-- No two user pages share a physical page. -/
def Separate (L : ℕ → ℕ) : Prop :=
  ∀ v v', UserPage L v → UserPage L v' → PTE2PA (L v) = PTE2PA (L v') → v = v'

variable {H : Type} {cfg : Config} {s s' : Phys} {own : ℕ → Own H} {m m' m1 : Bytes} {L : ℕ → ℕ}
  {r v va a i n len : ℕ} {l l' src : List UInt8}

/-! ## Addresses -/

theorem and_pte_u (w : ℕ) : w &&& PTE_U = 16 * (w / 16 % 2) := by
  have hhigh : (w &&& PTE_U) / 2 ^ 4 = w / 16 % 2 := by
    rw [Nat.and_div_two_pow, show PTE_U / 2 ^ 4 = 1 by decide, Nat.and_one_is_mod]
  have hlow : (w &&& PTE_U) % 2 ^ 4 = 0 := by
    rw [Nat.and_mod_two_pow, show PTE_U % 2 ^ 4 = 0 by decide, Nat.and_zero]
  omega

theorem pgrounddown_eq (a : ℕ) : PGROUNDDOWN a = 4096 * (a / 4096) := by
  unfold PGROUNDDOWN PGSIZE
  omega

theorem userPage_iff :
    UserPage L v ↔ v < 2 ^ 26 ∧ L v % 2 = 1 ∧ L v / 16 % 2 = 1 ∧ L v / 1024 ≠ 0 := by
  unfold UserPage MAXVA
  rw [and_pte_v, and_pte_u, pte2pa_eq, Nat.shiftLeft_eq]
  omega

theorem userAddr_eq_some : userAddr L va = some a ↔
      UserPage L (va / 4096) ∧ a = 4096 * (L (va / 4096) / 1024) + va % 4096 := by
  unfold userAddr
  rw [Option.ite_none_right_eq_some, Option.some.injEq, eq_comm (a := a), pte2pa_eq]

theorem userAddr_isSome : (userAddr L va).isSome ↔ UserPage L (va / 4096) := by
  unfold userAddr
  split_ifs with h <;> simp [h]

theorem userByte_isSome : (userByte m L va).isSome ↔ UserPage L (va / 4096) := by
  unfold userByte
  rw [Option.isSome_map]
  exact userAddr_isSome

theorem Separate.addr_inj {va' : ℕ} (h : Separate L) (h1 : userAddr L va = some a)
    (h2 : userAddr L va' = some a) : va = va' := by
  obtain ⟨p1, e1⟩ := userAddr_eq_some.mp h1
  obtain ⟨p2, e2⟩ := userAddr_eq_some.mp h2
  have := h _ _ p1 p2 (by rw [pte2pa_eq, pte2pa_eq]; omega)
  omega

theorem walkaddr_eq (h : Tree s.mem own r L) (v : ℕ) :
    walkaddr cfg (4096 * r) (4096 * v) s = .ok (userAddr L (4096 * v), s) := by
  have key : Spec (walkaddr cfg (4096 * r) (4096 * v)) s
      (fun res s' => res = userAddr L (4096 * v) ∧ s' = s) Never := by
    have hpage : userAddr L (4096 * v) = if UserPage L v then some (PTE2PA (L v)) else none := by
      unfold userAddr
      rw [show 4096 * v / 4096 = v by omega, show 4096 * v % 4096 = 0 by omega, Nat.add_zero]
    unfold walkaddr
    by_cases hv : MAXVA ≤ 4096 * v
    · rw [if_pos hv, spec_pure, hpage, if_neg fun hp => absurd hp.1 (by omega)]
      exact ⟨rfl, rfl⟩
    · have hv26 : v < 2 ^ 26 := by
        unfold MAXVA at hv
        rw [Nat.shiftLeft_eq] at hv
        omega
      rw [if_neg hv, spec_bind]
      refine (walk_spec_false h hv26).imp ?_
      rintro (_ | a) s' ⟨rfl, h1⟩
      · have h0 : L v = 0 := by
          by_contra hne
          obtain ⟨k, hk⟩ := h.dom v hne
          exact h1 k hk
        rw [spec_pure, hpage, if_neg fun hp => hp.2.1 (by rw [h0]; rfl)]
        exact ⟨rfl, rfl⟩
      · obtain ⟨k, rfl, hk⟩ := h1
        simp only [spec_bind, spec_load]
        rw [h.get_entry hk]
        by_cases hV : L v &&& PTE_V = 0
        · rw [if_pos hV, spec_pure, hpage, if_neg fun hp => hp.2.1 hV]
          exact ⟨rfl, rfl⟩
        · rw [if_neg hV]
          by_cases hU : L v &&& PTE_U = 0
          · rw [if_pos hU, spec_pure, hpage, if_neg fun hp => hp.2.2.1 hU]
            exact ⟨rfl, rfl⟩
          · rw [if_neg hU, spec_pure, hpage, ptr]
            by_cases hpa : PTE2PA (L v) = 0
            · rw [if_pos hpa, if_neg fun hp => hp.2.2.2 hpa]
              exact ⟨rfl, rfl⟩
            · rw [if_neg hpa, if_pos ⟨by omega, hV, hU, hpa⟩]
              exact ⟨rfl, rfl⟩
  obtain ⟨_, _, e, rfl, rfl⟩ := key.exists_ok
  exact e

theorem userAddr_page (hp : UserPage L v) : userAddr L (4096 * v) = some (4096 * (L v / 1024)) := by
  rw [userAddr_eq_some, show 4096 * v / 4096 = v by omega]
  exact ⟨hp, by omega⟩

theorem userAddr_none (hp : ¬ UserPage L v) : userAddr L (4096 * v) = none := by
  unfold userAddr
  rw [show 4096 * v / 4096 = v by omega, if_neg hp]

/-! ## Reading -/

/-- The bytes of user memory from `va` on, if all of them are accessible. -/
def readUser (m : Bytes) (L : ℕ → ℕ) : ℕ → ℕ → Option (List UInt8)
  | _, 0 => some []
  | va, n + 1 => do
    let b ← userByte m L va
    let l ← readUser m L (va + 1) n
    return b :: l

theorem readUser_add (m : Bytes) (L : ℕ → ℕ) (va n k : ℕ) : readUser m L va (n + k) = do
      let l ← readUser m L va n
      let l' ← readUser m L (va + n) k
      return l ++ l' := by
  induction n generalizing va with
  | zero => simp [readUser]
  | succ n ih =>
    rw [show n + 1 + k = n + k + 1 by omega, readUser, readUser, ih,
      show va + 1 + n = va + (n + 1) by omega]
    simp [Option.bind_assoc]

theorem readUser_eq_some :
    readUser m L va n = some l ↔ l.length = n ∧ ∀ i < n, userByte m L (va + i) = l[i]? := by
  induction n generalizing va l with
  | zero =>
    rw [readUser, Option.some.injEq, List.length_eq_zero_iff, eq_comm]
    exact (and_iff_left fun _ hi => absurd hi (Nat.not_lt_zero _)).symm
  | succ n ih =>
    constructor
    · intro h
      simp only [readUser, Option.bind_eq_bind, Option.bind_eq_some_iff, Option.pure_def,
        Option.some.injEq] at h
      obtain ⟨b, hb, l', hl', rfl⟩ := h
      obtain ⟨hlen, hget⟩ := ih.mp hl'
      refine ⟨by simp [hlen], fun i hi => ?_⟩
      cases i with
      | zero => simpa using hb
      | succ i =>
        rw [List.getElem?_cons_succ, ← hget i (by omega)]
        congr 1
        omega
    · rintro ⟨hlen, hget⟩
      cases l with
      | nil => simp at hlen
      | cons b l =>
        have hb := hget 0 (by omega)
        have hl : readUser m L (va + 1) n = some l := by
          refine ih.mpr ⟨by simpa using hlen, fun i hi => ?_⟩
          have := hget (i + 1) (by omega)
          rw [List.getElem?_cons_succ] at this
          rw [← this]
          congr 1
          omega
        simp only [Nat.add_zero, List.getElem?_cons_zero] at hb
        simp [readUser, hb, hl]

theorem readUser_isSome : (readUser m L va n).isSome ↔ ∀ i < n, UserPage L ((va + i) / 4096) := by
  induction n generalizing va with
  | zero => simp [readUser]
  | succ n ih =>
    have h0 : (userByte m L va).isSome ↔ UserPage L (va / 4096) := userByte_isSome
    have hs : (readUser m L (va + 1) n).isSome ↔ ∀ i < n, UserPage L ((va + 1 + i) / 4096) := ih
    constructor
    · intro h i hi
      simp only [readUser, Option.bind_eq_bind, Option.pure_def, Option.isSome_iff_exists,
        Option.bind_eq_some_iff] at h
      obtain ⟨_, b, hb, l, hl, -⟩ := h
      cases i with
      | zero => exact h0.mp (Option.isSome_iff_exists.mpr ⟨b, hb⟩)
      | succ i =>
        have := hs.mp (Option.isSome_iff_exists.mpr ⟨l, hl⟩) i (by omega)
        rwa [show va + 1 + i = va + (i + 1) by omega] at this
    · intro h
      obtain ⟨b, hb⟩ := Option.isSome_iff_exists.mp (h0.mpr (by simpa using h 0 (by omega)))
      obtain ⟨l, hl⟩ := Option.isSome_iff_exists.mp (hs.mpr fun i hi => by
        rw [show va + 1 + i = va + (i + 1) by omega]
        exact h (i + 1) (by omega))
      simp [readUser, hb, hl]

/-- Inside a page, the physical bytes follow each other. -/
theorem readUser_page (hp : UserPage L (va / 4096)) (hn : va % 4096 + n ≤ 4096) :
    readUser m L va n = some (m.slice (4096 * (L (va / 4096) / 1024) + va % 4096) n) := by
  refine readUser_eq_some.mpr ⟨by simp [Bytes.slice], fun i hi => ?_⟩
  have hpage : (va + i) / 4096 = va / 4096 := by omega
  have haddr : userAddr L (va + i) = some (4096 * (L (va / 4096) / 1024) + va % 4096 + i) := by
    rw [userAddr_eq_some, hpage]
    exact ⟨hp, by omega⟩
  simp [userByte, haddr, Bytes.slice, hi]

theorem readUser_none (hp : ¬ UserPage L (va / 4096)) (hn : 0 < n) : readUser m L va n = none := by
  rw [← Option.not_isSome_iff_eq_none, readUser_isSome]
  intro h
  exact hp (h 0 hn)

theorem copyin_eq (h : Tree s.mem own r L) (va len : ℕ) :
    copyin cfg (4096 * r) va len s = .ok (readUser s.mem L va len, s) := by
  suffices hloop : ∀ fuel va len, len ≤ fuel →
      copyinLoop cfg (4096 * r) fuel va len s = .ok (readUser s.mem L va len, s) from
    hloop len va len le_rfl
  intro fuel
  induction fuel with
  | zero =>
    intro va len hle
    obtain rfl : len = 0 := by omega
    rfl
  | succ fuel ih =>
    intro va len hle
    rw [copyinLoop]
    by_cases hlen : len = 0
    · subst hlen
      rw [if_pos rfl]
      rfl
    · rw [if_neg hlen, pgrounddown_eq]
      show (walkaddr cfg (4096 * r) (4096 * (va / 4096)) s >>= _) = _
      rw [walkaddr_eq h]
      by_cases hp : UserPage L (va / 4096)
      · have hoff : va - 4096 * (va / 4096) = va % 4096 := by omega
        -- what is read in this page, and the rest
        have hsplit : readUser s.mem L va len = do
            let l ← readUser s.mem L va (min (PGSIZE - va % 4096) len)
            let l' ← readUser s.mem L (4096 * (va / 4096) + PGSIZE)
              (len - min (PGSIZE - va % 4096) len)
            return l ++ l' := by
          by_cases hc : PGSIZE - va % 4096 ≤ len
          · rw [min_eq_left hc, ← show va + (PGSIZE - va % 4096) = 4096 * (va / 4096) + PGSIZE by
              unfold PGSIZE; omega, ← readUser_add]
            congr 1
            omega
          · rw [min_eq_right (by omega), Nat.sub_self]
            simp [readUser]
        rw [userAddr_page hp, hsplit, readUser_page hp (by unfold PGSIZE; omega)]
        have hrest := ih (4096 * (va / 4096) + PGSIZE) (len - min (PGSIZE - va % 4096) len) (by
          unfold PGSIZE
          omega)
        show (copyinLoop cfg (4096 * r) fuel (4096 * (va / 4096) + PGSIZE)
          (len - min (PGSIZE - (va - 4096 * (va / 4096))) len) s >>= _) = _
        rw [hoff, hrest]
        cases readUser s.mem L (4096 * (va / 4096) + PGSIZE)
          (len - min (PGSIZE - va % 4096) len) with
        | none => rfl
        | some l => rfl
      · rw [userAddr_none hp, readUser_none hp (by omega)]
        rfl

/-! ## Writing -/

/-- User memory has changed from `va` on, where the bytes are now those of `l`. -/
structure Wrote (L : ℕ → ℕ) (va : ℕ) (l : List UInt8) (m m' : Bytes) : Prop where
  byte : ∀ i a b, userAddr L (va + i) = some a → l[i]? = some b → m' a = b
  rest : ∀ a, (∀ i < l.length, userAddr L (va + i) ≠ some a) → m' a = m a

theorem Wrote.nil (L : ℕ → ℕ) (va : ℕ) (m : Bytes) : Wrote L va [] m m :=
  ⟨fun _ _ _ _ h => by simp at h, fun _ _ => rfl⟩

theorem Wrote.append (hs : Separate L) (h : Wrote L va l m m1)
    (h' : Wrote L (va + l.length) l' m1 m') : Wrote L va (l ++ l') m m' := by
  refine ⟨fun i a b ha hb => ?_, fun a ha => ?_⟩
  · by_cases hi : i < l.length
    · rw [List.getElem?_append_left hi] at hb
      rw [h'.rest a fun j _ hj => ?_]
      · exact h.byte i a b ha hb
      · have := hs.addr_inj ha hj
        omega
    · rw [List.getElem?_append_right (by omega)] at hb
      refine h'.byte (i - l.length) a b ?_ hb
      rw [← ha]
      congr 1
      omega
  · rw [h'.rest a fun j hj => ?_, h.rest a fun i hi => ?_]
    · exact ha i (by rw [List.length_append]; omega)
    · have := ha (l.length + j) (by rw [List.length_append]; omega)
      rwa [← Nat.add_assoc] at this

theorem Wrote.page (hp : UserPage L (va / 4096)) (hl : va % 4096 + l.length ≤ 4096) (m : Bytes) :
    Wrote L va l m (m.blit (4096 * (L (va / 4096) / 1024) + va % 4096) l) := by
  have haddr : ∀ i < l.length, userAddr L (va + i) =
      some (4096 * (L (va / 4096) / 1024) + va % 4096 + i) := by
    intro i hi
    rw [userAddr_eq_some, show (va + i) / 4096 = va / 4096 by omega]
    exact ⟨hp, by omega⟩
  refine ⟨fun i a b ha hb => ?_, fun a ha => ?_⟩
  · obtain ⟨hi, -⟩ := List.getElem?_eq_some_iff.mp hb
    rw [haddr i hi, Option.some.injEq] at ha
    unfold Bytes.blit
    rw [if_pos (by omega), ← ha, Nat.add_sub_cancel_left, List.getD_eq_getElem?_getD, hb]
    rfl
  · unfold Bytes.blit
    rw [if_neg]
    rintro ⟨h1, h2⟩
    refine ha (a - (4096 * (L (va / 4096) / 1024) + va % 4096)) (by omega) ?_
    rw [haddr _ (by omega)]
    congr 1
    omega

theorem PageTable.wrote (h : PageTable m own r L) (hw : Wrote L va l m m') :
    PageTable m' own r L := by
  refine ⟨h.tree.congr (fun _ _ _ => Iff.rfl) fun n l' p hn a ha => hw.rest a fun i _ hi => ?_,
    h.apart⟩
  obtain ⟨hp, rfl⟩ := userAddr_eq_some.mp hi
  refine h.apart _ hp l' p ?_
  rw [← hn, pte2pa_eq]
  congr 1
  omega

/-- `copyout` writes as much as the user could have written. -/
theorem copyout_spec (h : PageTable s.mem own r L) (hs : Separate L) (va : ℕ) (src : List UInt8) :
    Spec (copyout cfg (4096 * r) va src) s (fun ok s' => ∃ k ≤ src.length,
      (ok = true ↔ k = src.length) ∧ (∀ i < k, UserPage L ((va + i) / 4096)) ∧
      (k < src.length → ¬ UserPage L ((va + k) / 4096)) ∧
      Wrote L va (src.take k) s.mem s'.mem ∧ s' = { s with mem := s'.mem }) Never := by
  suffices hloop : ∀ fuel va src, src.length ≤ fuel → ∀ s : Phys, PageTable s.mem own r L →
      Spec (copyoutLoop cfg (4096 * r) fuel va src) s (fun ok s' => ∃ k ≤ src.length,
        (ok = true ↔ k = src.length) ∧ (∀ i < k, UserPage L ((va + i) / 4096)) ∧
        (k < src.length → ¬ UserPage L ((va + k) / 4096)) ∧
        Wrote L va (src.take k) s.mem s'.mem ∧ s' = { s with mem := s'.mem }) Never from
    hloop src.length va src le_rfl s h
  intro fuel
  induction fuel with
  | zero =>
    intro va src hle s h
    obtain rfl := List.length_eq_zero_iff.mp (Nat.le_zero.mp hle)
    rw [copyoutLoop, spec_pure]
    exact ⟨0, le_rfl, by simp, by simp, by simp, Wrote.nil _ _ _, rfl⟩
  | succ fuel ih =>
    intro va src hle s h
    rw [copyoutLoop]
    by_cases hsrc : src = []
    · subst hsrc
      rw [if_pos rfl, spec_pure]
      exact ⟨0, le_rfl, by simp, by simp, by simp, Wrote.nil _ _ _, rfl⟩
    · have hpos := List.length_pos_iff.mpr hsrc
      rw [if_neg hsrc, pgrounddown_eq, spec_bind, spec_of_eq_ok (walkaddr_eq h.tree _)]
      by_cases hp : UserPage L (va / 4096)
      · rw [userAddr_page hp, show va - 4096 * (va / 4096) = va % 4096 by omega]
        generalize hn : min (PGSIZE - va % 4096) src.length = n
        have hn' : 0 < n ∧ n ≤ src.length ∧ va % 4096 + n ≤ 4096 ∧
            (n < src.length → va + n = 4096 * (va / 4096) + PGSIZE) := by
          unfold PGSIZE at hn ⊢
          omega
        have hlen : (src.take n).length = n := by
          rw [List.length_take]
          omega
        have hw : Wrote L va (src.take n) s.mem
            (s.mem.blit (4096 * (L (va / 4096) / 1024) + va % 4096) (src.take n)) :=
          Wrote.page hp (by omega) s.mem
        dsimp only
        rw [spec_bind, spec_put]
        refine (ih (4096 * (va / 4096) + PGSIZE) (src.drop n) (by
          rw [List.length_drop]; omega) _ (h.wrote hw)).imp ?_
        rintro ok s' ⟨k, hk, hok, hmapped, hstop, hwrote, hs'⟩
        rw [List.length_drop] at hk hok hstop
        refine ⟨n + k, by omega, ?_, fun i hi => ?_, fun hlt => ?_, ?_, ?_⟩
        · rw [hok]
          omega
        · by_cases hin : i < n
          · rwa [show (va + i) / 4096 = va / 4096 by omega]
          · have := hmapped (i - n) (by omega)
            rwa [← hn'.2.2.2 (by omega), show va + n + (i - n) = va + i by omega] at this
        · have := hstop (by omega)
          rwa [← hn'.2.2.2 (by omega), Nat.add_assoc] at this
        · rw [List.take_add]
          by_cases hlt : n < src.length
          · rw [← hn'.2.2.2 hlt] at hwrote
            refine hw.append hs ?_
            rwa [hlen]
          · obtain rfl : k = 0 := by omega
            rw [List.take_zero] at hwrote ⊢
            have hmem : s'.mem = s.mem.blit (4096 * (L (va / 4096) / 1024) + va % 4096)
                (src.take n) := funext fun a => hwrote.rest a (by simp)
            rw [List.append_nil, hmem]
            exact hw
        · exact hs'
      · rw [userAddr_none hp, spec_pure]
        refine ⟨0, Nat.zero_le _, ?_, by simp, fun _ => hp, Wrote.nil _ _ _, rfl⟩
        simp only [Bool.false_eq_true, false_iff]
        omega

theorem Wrote.readUser_eq (h : Wrote L va l m m')
    (hp : ∀ i < l.length, UserPage L ((va + i) / 4096)) : readUser m' L va l.length = some l := by
  refine readUser_eq_some.mpr ⟨rfl, fun i hi => ?_⟩
  obtain ⟨a, ha⟩ := Option.isSome_iff_exists.mp (userAddr_isSome.mpr (hp i hi))
  rw [userByte, ha, Option.map_some, List.getElem?_eq_getElem hi]
  rw [h.byte i a l[i] ha (List.getElem?_eq_getElem hi)]

/-! ## What the copies do -/

/-- Every page that meets `[va, va + len)` is below `MAXVA` and mapped with `PTE_V` and `PTE_U`. -/
def Accessible (L : ℕ → ℕ) (va len : ℕ) : Prop :=
  ∀ v, 4096 * v < va + len → va < 4096 * v + 4096 →
    4096 * v < MAXVA ∧ L v &&& PTE_V ≠ 0 ∧ L v &&& PTE_U ≠ 0

/-- User pages are not mapped to the physical page 0. -/
def NonNull (L : ℕ → ℕ) : Prop :=
  ∀ v, 4096 * v < MAXVA → L v &&& PTE_V ≠ 0 → L v &&& PTE_U ≠ 0 → PTE2PA (L v) ≠ 0

theorem accessible_iff (hL : NonNull L) :
    len = 0 ∨ Accessible L va len ↔ ∀ i < len, UserPage L ((va + i) / 4096) := by
  constructor
  · rintro (rfl | h) i hi
    · omega
    · obtain ⟨h1, h2, h3⟩ := h ((va + i) / 4096) (by omega) (by omega)
      exact ⟨h1, h2, h3, hL _ h1 h2 h3⟩
  · intro h
    by_cases hlen : len = 0
    · exact .inl hlen
    · refine .inr fun v h1 h2 => ?_
      -- the first byte of the range in page `v`
      obtain ⟨i, hi, e⟩ : ∃ i < len, (va + i) / 4096 = v := by
        by_cases hv : va ≤ 4096 * v
        · exact ⟨4096 * v - va, by omega, by omega⟩
        · exact ⟨0, by omega, by omega⟩
      obtain ⟨p1, p2, p3, -⟩ := e ▸ h i hi
      exact ⟨p1, p2, p3⟩

/-- `copyin` and `copyout` succeed exactly on ranges that the user may access. They then copy all
bytes in order, and `copyout` writes nowhere else. -/
theorem copyin_copyout (h : PageTable s.mem own r L) (hL : NonNull L) (hs : Separate L)
    (va len : ℕ) (src : List UInt8) (hsrc : src.length = len) :
    (∃ res, copyin cfg (4096 * r) va len s = .ok (res, s) ∧
      (res.isSome ↔ len = 0 ∨ Accessible L va len) ∧
      ∀ l, res = some l → l.length = len ∧ ∀ i < len, userByte s.mem L (va + i) = l[i]?) ∧
    ∃ ok s', copyout cfg (4096 * r) va src s = .ok (ok, s') ∧
      (ok = true ↔ len = 0 ∨ Accessible L va len) ∧
      (∀ a, (∀ i < len, userAddr L (va + i) ≠ some a) → s'.mem a = s.mem a) ∧
      (ok = true → (∀ i < len, userByte s'.mem L (va + i) = src[i]?) ∧
        copyin cfg (4096 * r) va len s' = .ok (some src, s')) := by
  constructor
  · refine ⟨_, copyin_eq h.tree va len, ?_, fun l hl => readUser_eq_some.mp hl⟩
    rw [accessible_iff hL]
    exact readUser_isSome
  · have hspec : Spec (copyout cfg (4096 * r) va src) s _ Never := copyout_spec h hs va src
    obtain ⟨ok, s', e, k, hk, hok, hmapped, hstop, hw, -⟩ := hspec.exists_ok
    have hall : ok = true ↔ ∀ i < len, UserPage L ((va + i) / 4096) := by
      rw [hok]
      constructor
      · rintro rfl i hi
        exact hmapped i (by omega)
      · intro hpages
        by_contra hne
        exact hstop (by omega) (hpages k (by omega))
    refine ⟨ok, s', e, hall.trans (accessible_iff hL).symm, fun a ha => ?_, fun hok' => ?_⟩
    · refine hw.rest a fun i hi => ha i ?_
      rw [List.length_take] at hi
      omega
    · rw [hok.mp hok', List.take_length] at hw
      have hread := hw.readUser_eq fun i hi => hall.mp hok' i (by omega)
      rw [hsrc] at hread
      refine ⟨(readUser_eq_some.mp hread).2, ?_⟩
      rw [copyin_eq (h.wrote hw).tree, hread]

/-! ## A page table with one page -/

/-- A kernel of two pages at `KERNBASE`. -/
def smallConfig : Config where
  trampoline := KERNBASE
  etext := KERNBASE + PGSIZE
  kend := KERNBASE + 2 * PGSIZE
  fails := fun _ => false
  kernbase_le := le_rfl
  trampoline_aligned := by decide
  etext_eq := rfl
  etext_le := by decide
  room := by decide

/-- Page 1 is the root, and virtual page 0 is in page 4. -/
def oneMem : Bytes :=
  ((Bytes.set (fun _ => 0) (4096 * 1 + 8 * 0) 8 (1024 * 2 + 1)).set (4096 * 2 + 8 * 0) 8
    (1024 * 3 + 1)).set (4096 * 3 + 8 * 0) 8 (1024 * 4 + 31)

def oneOwn : ℕ → Own Unit :=
  update (update (update (fun _ => .none) 1 (.node 1 2 0)) 2
    (.node 1 1 (512 * 0 + 0))) 3 (.node 1 0 (512 * (512 * 0 + 0) + 0))

def oneLeaf : ℕ → ℕ := update (fun _ => 0) (512 * (512 * (512 * 0 + 0) + 0) + 0)
  (1024 * 4 + 31)

theorem oneTree : Tree oneMem oneOwn 1 oneLeaf := by
  have hzero : ∀ n j, entry (fun _ => 0) n j = 0 := fun _ _ => Bytes.get_zero
  have h0 : Tree (H := Unit) (fun _ => 0) (update (fun _ => .none) 1 (.node 1 2 0)) 1
      (fun _ => 0) := by
    refine Tree.new (update_self ..) (fun n l p hn => ?_) (fun j _ => hzero 1 j)
      fun _ => rfl
    by_contra e
    rw [update_of_ne e] at hn
    cases hn
  have h1 := h0.link (k := 2) (i := 0) (update_self ..) (by decide) (hzero 1 0)
    (fun l p hn => by rw [update_of_ne (by decide)] at hn; cases hn)
    (fun j hj => (entry_set_apart hj).trans (hzero 2 j)) (fun n _ _ _ e => samePage_set e)
    (fun j _ e => entry_set_ne e) entry_set_same
  have h2 := h1.link (n := 2) (k := 3) (i := 0) (update_self ..) (by decide)
    ((entry_set_apart (by decide)).trans (hzero 2 0))
    (fun l p hn => by
      rw [update_of_ne (by decide), update_of_ne (by decide)] at hn
      cases hn)
    (fun j hj => (entry_set_apart hj).trans ((entry_set_apart hj).trans (hzero 3 j)))
    (fun n _ _ _ e => samePage_set e) (fun j _ e => entry_set_ne e) entry_set_same
  exact h2.set_leaf (n := 3) (i := 0) (update_self ..) (by decide)
    (fun n _ _ _ e => samePage_set e) (fun j _ e => entry_set_ne e) entry_set_same
    (.inr (by decide))

theorem oneLeaf_user (h : UserPage oneLeaf v) : v = 0 := by
  by_contra e
  have h0 : oneLeaf v = 0 := update_of_ne e _ _
  exact h.2.1 (by rw [h0]; rfl)

theorem oneTable : PageTable oneMem oneOwn 1 oneLeaf := by
  refine ⟨oneTree, fun v hv l p => ?_⟩
  rw [oneLeaf_user hv, show PTE2PA (oneLeaf 0) / 4096 = 4 by decide]
  unfold oneOwn
  rw [update_of_ne (by decide), update_of_ne (by decide), update_of_ne (by decide)]
  nofun

/-- Two bytes are written to the page and read back. -/
theorem copyin_copyout_page : ∃ s',
    copyout smallConfig (4096 * 1) 10 [7, 8] ⟨oneMem, 0, 0⟩ = .ok (true, s') ∧
      copyin smallConfig (4096 * 1) 10 2 s' = .ok (some [7, 8], s') := by
  have hnull : NonNull oneLeaf := by
    intro v _ hv _
    have e : v = 0 := by
      by_contra e
      have h0 : oneLeaf v = 0 := update_of_ne e _ _
      exact hv (by rw [h0]; rfl)
    subst e
    decide
  have hsep : Separate oneLeaf := fun v v' hv hv' _ =>
    (oneLeaf_user hv).trans (oneLeaf_user hv').symm
  have hrange : Accessible oneLeaf 10 2 := by
    intro v h1 _
    obtain rfl : v = 0 := by omega
    decide
  obtain ⟨-, ok, s', e, hok, -, hread⟩ :=
    copyin_copyout (s := ⟨oneMem, 0, 0⟩) oneTable hnull hsep 10 2 [7, 8] rfl
  obtain rfl := hok.mpr (.inr hrange)
  exact ⟨s', e, (hread rfl).2⟩

end TatakOS.Mem
