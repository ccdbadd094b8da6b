import TatakOS.Mem.Vm

/-!
# Page tables as trees

`Tree m own r L` says that the memory `m` holds, under the root page `r`, a well-formed page table
with the leaf entries `L`. Its pages are those that `own` gives to it: `node r l p` is the page of
level `l` that serves the virtual pages `v` with `v / 512 ^ (l + 1) = p`.
-/

namespace TatakOS.Mem

open Function

/-! ## Entries -/

/-- Entry `i` of the table in page `n`. -/
def entry (m : Bytes) (n i : ℕ) : ℕ := m.get (4096 * n + 8 * i) 8

/-- Page `n` has the same contents. -/
def SamePage (m m' : Bytes) (n : ℕ) : Prop := ∀ a, a / 4096 = n → m' a = m a

section Entry

variable {m m' : Bytes} {n n' i j w : ℕ}

theorem SamePage.refl (m : Bytes) (n : ℕ) : SamePage m m n := fun _ _ => rfl

theorem SamePage.trans {m'' : Bytes} (h : SamePage m m' n) (h' : SamePage m' m'' n) :
    SamePage m m'' n := fun a ha => (h' a ha).trans (h a ha)

theorem SamePage.get (h : SamePage m m' n) {a k : ℕ} (ha : 4096 * n ≤ a)
    (hk : a + k ≤ 4096 * n + 4096) : m'.get a k = m.get a k :=
  Bytes.get_congr fun b hb hb' => h b (by omega)

theorem SamePage.entry (h : SamePage m m' n) (hi : i < 512) : entry m' n i = entry m n i :=
  h.get (by omega) (by omega)

theorem samePage_set (hn : n' ≠ n) (hi : i < 512 := by decide) :
    SamePage m (m.set (4096 * n + 8 * i) 8 w) n' := by
  intro a ha
  exact Bytes.set_of_not_mem (by omega)

theorem entry_set_apart {j : ℕ} (hj : j < 512) (hn : n' ≠ n := by decide)
    (hi : i < 512 := by decide) : entry (m.set (4096 * n + 8 * i) 8 w) n' j = entry m n' j :=
  (samePage_set hn hi).entry hj

theorem samePage_fill {v : UInt8} (hn : n' ≠ n) : SamePage m (m.fill (4096 * n) 4096 v) n' := by
  intro a ha
  unfold Bytes.fill
  rw [if_neg (by omega)]

theorem entry_set_same (hw : w < 2 ^ 64 := by decide) :
    entry (m.set (4096 * n + 8 * i) 8 w) n i = w := by
  unfold entry
  rw [Bytes.get_set_same]
  exact Nat.mod_eq_of_lt hw

theorem entry_set_ne (h : j ≠ i) : entry (m.set (4096 * n + 8 * i) 8 w) n j = entry m n j := by
  unfold entry
  exact Bytes.get_set_of_disjoint (by omega)

theorem entry_fill_zero (hi : i < 512) : entry (m.fill (4096 * n) 4096 0) n i = 0 :=
  Bytes.get_fill_zero (by omega)

end Entry

/-! ## Trees -/

/-- Who has a page. `H` are the owners that page tables have nothing to do with. -/
inductive Own (H : Type)
  /-- The allocator does not manage it. -/
  | none
  | free
  | held (x : H)
  | node (r l p : ℕ)
  /-- Virtual page `v` of the page table `r` is mapped to it, and nothing else is. -/
  | leaf (r v : ℕ)

structure Tree {H : Type} (m : Bytes) (own : ℕ → Own H) (r : ℕ) (L : ℕ → ℕ) : Prop where
  root : own r = .node r 2 0
  top : ∀ n l p, own n = .node r l p → l ≤ 2 ∧ (l = 2 → n = r ∧ p = 0)
  parent : ∀ n l p, own n = .node r l p → l < 2 → ∃ n', own n' = .node r (l + 1) (p / 512)
  uniq : ∀ n n' l p, own n = .node r l p → own n' = .node r l p → n = n'
  inner : ∀ n l p i, own n = .node r (l + 1) p → i < 512 →
    entry m n i = 0 ∧ (∀ n', own n' ≠ .node r l (512 * p + i)) ∨
      ∃ n', own n' = .node r l (512 * p + i) ∧ entry m n i = 1024 * n' + 1
  bottom : ∀ n p i, own n = .node r 0 p → i < 512 → entry m n i = L (512 * p + i)
  dom : ∀ v, L v ≠ 0 → ∃ n, own n = .node r 0 (v / 512)
  valid : ∀ v, L v = 0 ∨ L v % 2 = 1

section Tree

variable {H : Type} {m m' : Bytes} {own own' : ℕ → Own H} {r n k l p i w : ℕ} {L : ℕ → ℕ}

section

variable (h : Tree m own r L)
include h

theorem Tree.congr (hown : ∀ n l p, own' n = .node r l p ↔ own n = .node r l p)
    (hm : ∀ n l p, own n = .node r l p → SamePage m m' n) : Tree m' own' r L := by
  refine ⟨(hown _ _ _).mpr h.root, ?_, ?_, ?_, ?_, ?_, ?_, h.valid⟩
  · simpa only [hown] using h.top
  · simpa only [hown] using h.parent
  · simpa only [hown] using h.uniq
  · intro n l p i hn hi
    rw [hown] at hn
    rw [(hm n _ _ hn).entry hi]
    simpa only [ne_eq, hown] using h.inner n l p i hn hi
  · intro n p i hn hi
    rw [hown] at hn
    rw [(hm n _ _ hn).entry hi]
    exact h.bottom n p i hn hi
  · simpa only [hown] using h.dom

theorem Tree.no_child (hn : own n = .node r (l + 1) p) (hi : i < 512) (h0 : entry m n i = 0)
    (n' : ℕ) : own n' ≠ .node r l (512 * p + i) := by
  rcases h.inner n l p i hn hi with ⟨-, hno⟩ | ⟨n'', -, e⟩
  · exact hno n'
  · omega

theorem Tree.set_leaf (hn : own n = .node r 0 p) (hi : i < 512)
    (hm : ∀ n' l p, own n' = .node r l p → n' ≠ n → SamePage m m' n')
    (hne : ∀ j < 512, j ≠ i → entry m' n j = entry m n j) (heq : entry m' n i = w)
    (hw : w = 0 ∨ w % 2 = 1) : Tree m' own r (update L (512 * p + i) w) := by
  refine ⟨h.root, h.top, h.parent, h.uniq, ?_, ?_, ?_, ?_⟩
  · intro n' l' p' j hn' hj
    have e : n' ≠ n := by
      rintro rfl
      rw [hn] at hn'
      cases hn'
    rw [(hm n' _ _ hn' e).entry hj]
    exact h.inner n' l' p' j hn' hj
  · intro n' p' j hn' hj
    by_cases e : n' = n
    · subst e
      rw [hn] at hn'
      cases hn'
      by_cases ej : j = i
      · subst ej
        rw [heq, update_self]
      · rw [hne j hj ej, update_of_ne (by omega)]
        exact h.bottom n' p j hn hj
    · have ep : p' ≠ p := by
        rintro rfl
        exact e (h.uniq n' n 0 p' hn' hn)
      rw [(hm n' _ _ hn' e).entry hj, update_of_ne (by omega)]
      exact h.bottom n' p' j hn' hj
  · intro v hv
    by_cases e : v = 512 * p + i
    · refine ⟨n, ?_⟩
      rw [hn, show v / 512 = p by omega]
    · rw [update_of_ne e] at hv
      exact h.dom v hv
  · intro v
    by_cases e : v = 512 * p + i
    · subst e
      rwa [update_self]
    · rw [update_of_ne e]
      exact h.valid v

theorem Tree.link (hn : own n = .node r (l + 1) p) (hi : i < 512) (h0 : entry m n i = 0)
    (hk : ∀ l p, own k ≠ .node r l p) (hz : ∀ j < 512, entry m' k j = 0)
    (hm : ∀ n' l p, own n' = .node r l p → n' ≠ n → SamePage m m' n')
    (hne : ∀ j < 512, j ≠ i → entry m' n j = entry m n j) (heq : entry m' n i = 1024 * k + 1) :
    Tree m' (update own k (.node r l (512 * p + i))) r L := by
  have hno := h.no_child hn hi h0
  have old : ∀ {n' l' p'}, own n' = .node r l' p' → n' ≠ k := by
    rintro n' l' p' hn' rfl
    exact hk _ _ hn'
  have upd : ∀ {n'}, n' ≠ k → update own k (.node r l (512 * p + i)) n' = own n' :=
    fun e => update_of_ne e _ _
  -- a page of the new tree is a page of the old one or the new page
  have inv : ∀ {n' l' p'}, update own k (.node r l (512 * p + i)) n' = .node r l' p' →
      n' = k ∧ l' = l ∧ p' = 512 * p + i ∨ n' ≠ k ∧ own n' = .node r l' p' := by
    intro n' l' p' h'
    by_cases e : n' = k
    · subst e
      rw [update_self] at h'
      cases h'
      exact .inl ⟨rfl, rfl, rfl⟩
    · rw [upd e] at h'
      exact .inr ⟨e, h'⟩
  have hl : l + 1 ≤ 2 := (h.top n _ _ hn).1
  refine ⟨?_, ?_, ?_, ?_, ?_, ?_, ?_, h.valid⟩
  · rw [upd (old h.root)]
    exact h.root
  · intro n' l' p' h'
    obtain ⟨-, rfl, -⟩ | ⟨-, h'⟩ := inv h'
    · exact ⟨by omega, fun e => by omega⟩
    · exact h.top n' l' p' h'
  · intro n' l' p' h' hlt
    obtain ⟨-, rfl, rfl⟩ | ⟨-, h'⟩ := inv h'
    · refine ⟨n, ?_⟩
      rw [upd (old hn), hn, show (512 * p + i) / 512 = p by omega]
    · obtain ⟨n'', h''⟩ := h.parent n' l' p' h' hlt
      exact ⟨n'', by rw [upd (old h'')]; exact h''⟩
  · intro n1 n2 l' p' h1 h2
    obtain ⟨rfl, rfl, rfl⟩ | ⟨-, o1⟩ := inv h1
    · obtain ⟨rfl, -⟩ | ⟨-, o2⟩ := inv h2
      · rfl
      · exact absurd o2 (hno n2)
    · obtain ⟨-, rfl, rfl⟩ | ⟨-, o2⟩ := inv h2
      · exact absurd o1 (hno n1)
      · exact h.uniq n1 n2 l' p' o1 o2
  · intro n' l' p' j h' hj
    obtain ⟨rfl, hll, hp'⟩ | ⟨-, o'⟩ := inv h'
    · -- below the new page there is nothing
      refine .inl ⟨hz j hj, fun n'' h'' => ?_⟩
      obtain ⟨-, e, -⟩ | ⟨-, o''⟩ := inv h''
      · omega
      · obtain ⟨q, hq⟩ := h.parent n'' l' _ o'' (by omega)
        rw [show (512 * p' + j) / 512 = p' by omega, hp', hll] at hq
        exact hno q hq
    · by_cases en : n' = n
      · subst en
        rw [hn] at o'
        cases o'
        by_cases ej : j = i
        · subst ej
          exact .inr ⟨k, update_self .., heq⟩
        · rw [hne j hj ej]
          rcases h.inner n' l p j hn hj with ⟨e0, hnone⟩ | ⟨q, hq, e⟩
          · refine .inl ⟨e0, fun n'' h'' => ?_⟩
            obtain ⟨-, -, e⟩ | ⟨-, o''⟩ := inv h''
            · omega
            · exact hnone n'' o''
          · exact .inr ⟨q, by rw [upd (old hq)]; exact hq, e⟩
      · rw [(hm n' _ _ o' en).entry hj]
        rcases h.inner n' l' p' j o' hj with ⟨e0, hnone⟩ | ⟨q, hq, e⟩
        · refine .inl ⟨e0, fun n'' h'' => ?_⟩
          obtain ⟨-, rfl, e⟩ | ⟨-, o''⟩ := inv h''
          · obtain rfl : p' = p := by omega
            exact en (h.uniq n' n _ _ o' hn)
          · exact hnone n'' o''
        · exact .inr ⟨q, by rw [upd (old hq)]; exact hq, e⟩
  · intro n' p' j h' hj
    obtain ⟨rfl, rfl, rfl⟩ | ⟨-, h'⟩ := inv h'
    · rw [hz j hj]
      by_contra hL
      obtain ⟨q, hq⟩ := h.dom _ (Ne.symm hL)
      rw [show (512 * (512 * p + i) + j) / 512 = 512 * p + i by omega] at hq
      exact hno q hq
    · have en : n' ≠ n := by
        rintro rfl
        rw [hn] at h'
        cases h'
      rw [(hm n' _ _ h' en).entry hj]
      exact h.bottom n' p' j h' hj
  · intro v hv
    obtain ⟨q, hq⟩ := h.dom v hv
    exact ⟨q, by rw [upd (old hq)]; exact hq⟩

theorem Tree.unlink (hn : own n = .node r (l + 1) p) (hi : i < 512)
    (hk : own k = .node r l (512 * p + i)) (hz : ∀ j < 512, entry m k j = 0)
    (hown : ∀ n' l' p', own' n' = .node r l' p' ↔ own n' = .node r l' p' ∧ n' ≠ k)
    (hm : ∀ n' l p, own n' = .node r l p → n' ≠ n → n' ≠ k → SamePage m m' n')
    (hne : ∀ j < 512, j ≠ i → entry m' n j = entry m n j) (heq : entry m' n i = 0) :
    Tree m' own' r L := by
  have hl : l + 1 ≤ 2 := (h.top n _ _ hn).1
  -- nothing is below the page
  have hleaf : ∀ n' l' p', own n' = .node r l' p' → l' + 1 = l → p' / 512 ≠ 512 * p + i := by
    intro n' l' p' hn' hll e
    subst hll
    refine h.no_child hk (show p' % 512 < 512 by omega) (hz _ (by omega)) n' ?_
    rw [hn', show 512 * (512 * p + i) + p' % 512 = p' by omega]
  have hnk : n ≠ k := by
    rintro rfl
    rw [hn, Own.node.injEq] at hk
    omega
  refine ⟨?_, ?_, ?_, ?_, ?_, ?_, ?_, h.valid⟩
  · refine (hown _ _ _).mpr ⟨h.root, ?_⟩
    rintro rfl
    have := h.root
    rw [hk, Own.node.injEq] at this
    omega
  · intro n' l' p' h'
    exact h.top n' l' p' ((hown _ _ _).mp h').1
  · intro n' l' p' h' hlt
    obtain ⟨o', -⟩ := (hown _ _ _).mp h'
    obtain ⟨q, hq⟩ := h.parent n' l' p' o' hlt
    refine ⟨q, (hown _ _ _).mpr ⟨hq, ?_⟩⟩
    rintro rfl
    rw [hk, Own.node.injEq] at hq
    exact hleaf n' l' p' o' (by omega) hq.2.2.symm
  · intro n1 n2 l' p' h1 h2
    exact h.uniq n1 n2 l' p' ((hown _ _ _).mp h1).1 ((hown _ _ _).mp h2).1
  · intro n' l' p' j h' hj
    obtain ⟨o', hn'k⟩ := (hown _ _ _).mp h'
    by_cases e : n' = n ∧ j = i
    · obtain ⟨rfl, rfl⟩ := e
      rw [hn] at o'
      cases o'
      refine .inl ⟨heq, fun n'' h'' => ?_⟩
      obtain ⟨o'', hne''⟩ := (hown _ _ _).mp h''
      exact hne'' (h.uniq n'' k _ _ o'' hk)
    · have hentry : entry m' n' j = entry m n' j := by
        by_cases en : n' = n
        · subst en
          exact hne j hj fun ej => e ⟨rfl, ej⟩
        · exact (hm n' _ _ o' en hn'k).entry hj
      rw [hentry]
      rcases h.inner n' l' p' j o' hj with ⟨e0, hnone⟩ | ⟨q, hq, e'⟩
      · exact .inl ⟨e0, fun n'' h'' => hnone n'' ((hown _ _ _).mp h'').1⟩
      · refine .inr ⟨q, (hown _ _ _).mpr ⟨hq, ?_⟩, e'⟩
        rintro rfl
        rw [hk, Own.node.injEq] at hq
        obtain ⟨-, rfl, hp⟩ := hq
        obtain rfl : p' = p := by omega
        exact e ⟨h.uniq n' n _ _ o' hn, by omega⟩
  · intro n' p' j h' hj
    obtain ⟨o', hn'k⟩ := (hown _ _ _).mp h'
    have en : n' ≠ n := by
      rintro rfl
      rw [hn] at o'
      cases o'
    rw [(hm n' _ _ o' en hn'k).entry hj]
    exact h.bottom n' p' j o' hj
  · intro v hv
    obtain ⟨q, hq⟩ := h.dom v hv
    refine ⟨q, (hown _ _ _).mpr ⟨hq, ?_⟩⟩
    rintro rfl
    have := h.bottom q _ (v % 512) hq (by omega)
    rw [hz _ (by omega), show 512 * (v / 512) + v % 512 = v by omega] at this
    exact hv this.symm

end

theorem Tree.new (hr : own r = .node r 2 0) (huniq : ∀ n l p, own n = .node r l p → n = r)
    (hz : ∀ j < 512, entry m r j = 0) (hL : ∀ v, L v = 0) : Tree m own r L := by
  have hl : ∀ n l p, own n = .node r l p → n = r ∧ l = 2 ∧ p = 0 := by
    intro n l p hn
    obtain rfl := huniq n l p hn
    rw [hr] at hn
    cases hn
    exact ⟨rfl, rfl, rfl⟩
  refine ⟨hr, ?_, ?_, ?_, ?_, ?_, ?_, fun v => .inl (hL v)⟩
  · intro n l p hn
    obtain ⟨rfl, rfl, rfl⟩ := hl n l p hn
    exact ⟨le_rfl, fun _ => ⟨rfl, rfl⟩⟩
  · intro n l p hn hlt
    have := hl n l p hn
    omega
  · intro n n' l p hn hn'
    exact (hl n l p hn).1.trans (hl n' l p hn').1.symm
  · intro n l p i hn hi
    obtain ⟨rfl, hl2, -⟩ := hl n _ p hn
    refine .inl ⟨hz i hi, fun n' hn' => ?_⟩
    have := (hl n' _ _ hn').2.1
    omega
  · intro n p i hn
    have := (hl n _ p hn).2.1
    omega
  · intro v hv
    exact absurd (hL v) hv

theorem Tree.eq_root (h : Tree m own r L) (hz : ∀ j < 512, entry m r j = 0) (hn : own n = .node r l p) :
    n = r := by
  have hone : ∀ n p, own n ≠ .node r 1 p := by
    intro n p hn
    obtain ⟨q, hq⟩ := h.parent n 1 p hn (by omega)
    obtain ⟨rfl, hp⟩ := (h.top q _ _ hq).2 rfl
    refine h.no_child hq (show p % 512 < 512 by omega) (hz _ (by omega)) n ?_
    rw [hn, show 512 * (p / 512) + p % 512 = p by omega]
  obtain ⟨hle, htop⟩ := h.top n l p hn
  obtain rfl | rfl | rfl : l = 0 ∨ l = 1 ∨ l = 2 := by omega
  · obtain ⟨q, hq⟩ := h.parent n 0 p hn (by omega)
    exact absurd hq (hone q _)
  · exact absurd hn (hone n p)
  · exact (htop rfl).1

end Tree

end TatakOS.Mem
