import TatakOS.Mem.Space

/-!
# A page table as a map

Calls of `mappages` and `uvmunmap` on a page table from `uvmcreate`, with other calls of `kalloc` and
`kfree` between them, refine operations on a map from virtual pages to physical addresses and flags.
When the map is empty, `freewalk` gives all pages of the page table back.
-/

namespace TatakOS.Mem

open Function

/-- A word as a leaf entry: the physical address and the flags. -/
def leafOf (w : ℕ) : Option (ℕ × ℕ) :=
  if w &&& PTE_V ≠ 0 then some (PTE2PA w, PTE_FLAGS w) else none

/-- The leaf that `walk` finds for `va`. -/
def translation (cfg : Config) (s : Phys) (pagetable va : ℕ) : Option (ℕ × ℕ) :=
  leafOf (pte cfg s pagetable va)

/-! ## The map -/

/-- Virtual pages with the physical address and the flags. -/
abbrev PageMap := ℕ → Option (ℕ × ℕ)

/-- `k` pages from `v` on are entered, the first one with the physical address `pa`. -/
def PageMap.enter (M : PageMap) (v k pa perm : ℕ) : PageMap := fun u =>
  if v ≤ u ∧ u < v + k then
    some (PGROUNDDOWN ((pa + PGSIZE * (u - v)) % 2 ^ 64), perm ||| PTE_V)
  else M u

def PageMap.remove (M : PageMap) (v k : ℕ) : PageMap := fun u =>
  if v ≤ u ∧ u < v + k then none else M u

/-- The number of pages that meet `[va, va + size)`. -/
def pageCount (va size : ℕ) : ℕ := (va + size - 1) / PGSIZE - va / PGSIZE + 1

inductive PtOp
  | map (va size pa perm : ℕ)
  | unmap (va npages : ℕ) (doFree : Bool)
  | kalloc
  | kfree (pa : ℕ)

inductive PtResult
  | none
  | mapped (ok : Bool)
  | page (pa : Option ℕ)
  deriving DecidableEq

def PtOp.exec (cfg : Config) (pagetable : ℕ) : PtOp → Vm PtResult
  | .map va size pa perm => do return .mapped (← mappages cfg pagetable va size pa perm)
  | .unmap va npages doFree => do
    uvmunmap cfg pagetable va npages doFree
    return .none
  | .kalloc => do return .page (← Mem.kalloc cfg)
  | .kfree pa => do
    Mem.kfree cfg pa
    return .none

def ptExec (cfg : Config) (pagetable : ℕ) : List PtOp → Vm (List PtResult)
  | [] => return []
  | o :: os => do
    let r ← o.exec cfg pagetable
    return r :: (← ptExec cfg pagetable os)

/-- What an operation does to the map. A `mappages` that fails enters some of the pages, but not the
last. -/
inductive PtStep (M : PageMap) : PtOp → PtResult → PageMap → Prop
  | mapAll (va size pa perm : ℕ) : PtStep M (.map va size pa perm) (.mapped true)
      (M.enter (va / PGSIZE) (pageCount va size) pa perm)
  | mapSome (va size pa perm k : ℕ) (hk : k < pageCount va size) :
    PtStep M (.map va size pa perm) (.mapped false) (M.enter (va / PGSIZE) k pa perm)
  | unmap (va npages : ℕ) (doFree : Bool) :
    PtStep M (.unmap va npages doFree) .none (M.remove (va / PGSIZE) npages)
  | kalloc (pa : Option ℕ) : PtStep M .kalloc (.page pa) M
  | kfree (pa : ℕ) : PtStep M (.kfree pa) .none M

inductive PtRun : PageMap → List PtOp → List PtResult → PageMap → Prop
  | nil (M : PageMap) : PtRun M [] [] M
  | cons {M M' M'' : PageMap} {o : PtOp} {os : List PtOp} {r : PtResult} {rs : List PtResult}
    (h : PtStep M o r M') (hs : PtRun M' os rs M'') : PtRun M (o :: os) (r :: rs) M''

/-! ## What the caller has to see to -/

/-- The physical address that `uvmunmap` finds in round `i`. -/
def unmapAddr (cfg : Config) (pagetable : ℕ) (s : Phys) (va i : ℕ) : ℕ :=
  PTE2PA (pte cfg s pagetable (va + PGSIZE * i))

/-- The pages in use, after an operation. -/
def PtOp.used (cfg : Config) (pagetable : ℕ) (s : Phys) (A : Set ℕ) : PtOp → PtResult → Set ℕ
  | .kalloc, .page (some pa) => insert pa A
  | .kfree pa, _ => A \ {pa}
  | .unmap va npages true, _ => A \ {pa | ∃ i < npages, pa = unmapAddr cfg pagetable s va i}
  | _, _ => A

/-- New mappings are below `MAXVA` and not in the way of others, only mapped pages are unmapped, and
only pages in use are freed. -/
def PtOp.Ok (cfg : Config) (pagetable : ℕ) (s : Phys) (A : Set ℕ) : PtOp → Prop
  | .map va size pa perm => 0 < size ∧ va + size ≤ MAXVA ∧ pa < 2 ^ 64 ∧ perm < 1024 ∧
      perm &&& (PTE_R ||| PTE_W ||| PTE_X) ≠ 0 ∧
      ∀ i < size, translation cfg s pagetable (va + i) = none
  | .unmap va npages doFree => va % PGSIZE = 0 ∧ va + PGSIZE * npages ≤ MAXVA ∧
      (∀ i < npages, translation cfg s pagetable (va + PGSIZE * i) ≠ none) ∧
      (doFree = true → (∀ i < npages, unmapAddr cfg pagetable s va i ∈ A) ∧
        ∀ i < npages, ∀ j < npages,
          unmapAddr cfg pagetable s va i = unmapAddr cfg pagetable s va j → i = j)
  | .kalloc => True
  | .kfree pa => pa ∈ A

def PtProvided (cfg : Config) (pagetable : ℕ) : Set ℕ → Phys → List PtOp → Prop
  | _, _, [] => True
  | A, s, o :: os => o.Ok cfg pagetable s A ∧ ∀ r s', o.exec cfg pagetable s = .ok (r, s') →
      PtProvided cfg pagetable (o.used cfg pagetable s A r) s' os

/-- The pages of the page table, from a table of level `l` on. -/
def tablePages (m : Bytes) : ℕ → ℕ → List ℕ
  | 0, pagetable => [pagetable]
  | l + 1, pagetable => pagetable :: (List.range 512).flatMap fun i =>
      if m.get (pagetable + 8 * i) 8 &&& PTE_V ≠ 0 then
        tablePages m l (PTE2PA (m.get (pagetable + 8 * i) 8))
      else []

section Table

variable {H : Type} {cfg : Config} {owns : ℕ → ℕ → Prop} {s s' s1 : Phys} {G G' G1 : Ghost H}
  {m : Bytes} {own : ℕ → Own H} {L : ℕ → ℕ} {M M' : PageMap} {A : Set ℕ}
  {r k l p n u v w pa perm : ℕ}

/-! ## Entries -/

theorem leafOf_zero : leafOf 0 = none := by decide

theorem leafOf_eq (w : ℕ) :
    leafOf w = if w % 2 = 1 then some (4096 * (w / 1024), w % 1024) else none := by
  unfold leafOf
  rw [and_pte_v, pte2pa_eq, pte_flags_eq]
  by_cases h : w % 2 = 1
  · rw [if_pos h, if_pos (by omega)]
  · rw [if_neg h, if_neg (by omega)]

theorem leafOf_mapped (hp : perm < 1024) :
    leafOf (1024 * n + (perm ||| PTE_V)) = some (4096 * n, perm ||| PTE_V) := by
  obtain ⟨-, hlt, hodd⟩ := map_word (k := n) hp
  rw [leafOf_eq, if_pos hodd, show (1024 * n + (perm ||| PTE_V)) / 1024 = n by omega,
    show (1024 * n + (perm ||| PTE_V)) % 1024 = perm ||| PTE_V by omega]

theorem Tree.leafOf_eq_none (ht : Tree m own r L) (v : ℕ) : leafOf (L v) = none ↔ L v = 0 := by
  rw [leafOf_eq]
  obtain h | h := ht.valid v
  · rw [h]
    decide
  · rw [if_pos h]
    exact iff_of_false nofun (by omega)

/-! ## The pages of a page table -/

theorem Tree.ancestor (ht : Tree m own r L) {d : ℕ} (hn : own n = .node r l p) (hd : l + d ≤ 2) :
    ∃ k, own k = .node r (l + d) (p / 512 ^ d) := by
  induction d with
  | zero =>
    rw [Nat.pow_zero, Nat.div_one]
    exact ⟨n, hn⟩
  | succ d ih =>
    obtain ⟨k, hk⟩ := ih (by omega)
    obtain ⟨k', hk'⟩ := ht.parent k _ _ hk (by omega)
    rw [Nat.pow_succ, ← Nat.div_div_eq_div_mul]
    exact ⟨k', hk'⟩

theorem Tree.mem_tablePages (ht : Tree m own r L) {a : ℕ} (hk : own k = .node r l p) :
    a ∈ tablePages m l (4096 * k) ↔
      ∃ n d q, a = 4096 * n ∧ d ≤ l ∧ own n = .node r (l - d) q ∧ q / 512 ^ d = p := by
  induction l generalizing k p with
  | zero =>
    rw [tablePages, List.mem_singleton]
    constructor
    · rintro rfl
      exact ⟨k, 0, p, rfl, le_rfl, hk, Nat.div_one p⟩
    · rintro ⟨n, d, q, rfl, hd, hn, rfl⟩
      obtain rfl := Nat.le_zero.mp hd
      rw [Nat.pow_zero, Nat.div_one] at hk
      rw [ht.uniq n k 0 q hn hk]
  | succ l ih =>
    -- what an entry leads to
    have hentry : ∀ i < 512, ∀ k', own k' = .node r l (512 * p + i) →
        m.get (4096 * k + 8 * i) 8 = 1024 * k' + 1 := by
      intro i hi k' hk'
      obtain ⟨-, hno⟩ | ⟨k'', hk'', e⟩ := ht.inner k l p i hk hi
      · exact absurd hk' (hno k')
      · rw [ht.uniq k' k'' _ _ hk' hk'']
        exact e
    rw [tablePages, List.mem_cons, List.mem_flatMap]
    constructor
    · rintro (rfl | ⟨i, hi, ha⟩)
      · exact ⟨k, 0, p, rfl, Nat.zero_le _, hk, Nat.div_one p⟩
      · have hi' : i < 512 := List.mem_range.mp hi
        obtain ⟨e, -⟩ | ⟨k', hk', e⟩ := ht.inner k l p i hk hi'
        · rw [show m.get (4096 * k + 8 * i) 8 = 0 from e] at ha
          exact absurd ha List.not_mem_nil
        · rw [show m.get (4096 * k + 8 * i) 8 = 1024 * k' + 1 from e, and_pte_v, pte2pa_eq,
            if_pos (by omega), show (1024 * k' + 1) / 1024 = k' by omega, ih hk'] at ha
          obtain ⟨n, d, q, rfl, hd, hn, hq⟩ := ha
          refine ⟨n, d + 1, q, rfl, by omega, ?_, ?_⟩
          · rwa [Nat.add_sub_add_right]
          · rw [Nat.pow_succ, ← Nat.div_div_eq_div_mul, hq]
            omega
    · rintro ⟨n, d, q, rfl, hd, hn, hq⟩
      cases d with
      | zero =>
        rw [Nat.pow_zero, Nat.div_one] at hq
        subst hq
        exact .inl (by rw [ht.uniq n k _ _ hn hk])
      | succ d =>
        -- the table of level `l` on the way to page `n`
        rw [Nat.add_sub_add_right] at hn
        have hl := (ht.top k _ _ hk).1
        obtain ⟨k', hk'⟩ := ht.ancestor (d := d) hn (by omega)
        rw [Nat.pow_succ, ← Nat.div_div_eq_div_mul] at hq
        rw [show l - d + d = l by omega, show q / 512 ^ d = 512 * p + q / 512 ^ d % 512 by omega]
          at hk'
        have hi : q / 512 ^ d % 512 < 512 := Nat.mod_lt _ (by norm_num)
        refine .inr ⟨_, List.mem_range.mpr hi, ?_⟩
        rw [hentry _ hi k' hk', and_pte_v, pte2pa_eq, if_pos (by omega),
          show (1024 * k' + 1) / 1024 = k' by omega, ih hk']
        exact ⟨n, d, q, rfl, by omega, hn, by omega⟩

/-- The pages that `walk` can come to are those that the page table owns. -/
theorem Tree.mem_tablePages_root (ht : Tree m own r L) {a : ℕ} :
    a ∈ tablePages m 2 (4096 * r) ↔ ∃ n l p, a = 4096 * n ∧ own n = .node r l p := by
  rw [ht.mem_tablePages ht.root]
  constructor
  · rintro ⟨n, d, q, rfl, -, hn, -⟩
    exact ⟨n, _, q, rfl, hn⟩
  · rintro ⟨n, l, p, rfl, hn⟩
    have hl := (ht.top n l p hn).1
    obtain ⟨k, hk⟩ := ht.ancestor (d := 2 - l) hn (by omega)
    rw [show l + (2 - l) = 2 by omega] at hk
    exact ⟨n, 2 - l, p, rfl, by omega, by rwa [show 2 - (2 - l) = l by omega],
      ((ht.top k 2 _ hk).2 rfl).2⟩

theorem Own.not_apart_empty (o : Own H) : ¬ o.Apart r ∅ ↔ o = .free ∨ ∃ l p, o = .node r l p := by
  cases o with
  | none | held x => exact iff_of_false (not_not.mpr trivial) (by simp)
  | free => exact iff_of_true id (.inl rfl)
  | node r' l p =>
    constructor
    · intro h
      obtain rfl := not_not.mp h
      exact .inr ⟨l, p, rfl⟩
    · rintro (h | ⟨l', p', h⟩)
      · cases h
      · cases h
        exact fun hne => hne rfl
  | leaf r' v => exact iff_of_false (not_not.mpr fun _ => Set.notMem_empty v) (by simp)

theorem freewalk_frees (h : MemOk cfg owns s G) (hr : G.live r) (hL : ∀ v, G.leaf r v = 0) :
    Spec (freewalk cfg 3 (4096 * r)) s (fun _ s' => ∀ P, FreeList s.mem s.freelist P →
      (∀ a ∈ tablePages s.mem 2 (4096 * r), ¬ P a) ∧
      FreeList s'.mem s'.freelist fun a => P a ∨ a ∈ tablePages s.mem 2 (4096 * r)) Never := by
  refine (freewalk_root h hr hL).imp ?_
  rintro _ s' ⟨G', h', hdead, hf⟩ P hP
  have hmem : ∀ a, a ∈ tablePages s.mem 2 (4096 * r) ↔
      ∃ n l p, a = 4096 * n ∧ G.own n = .node r l p := fun a => (h.tree r hr).mem_tablePages_root
  have hfree : ∀ n, G'.own n = .free ↔ G.own n = .free ∨ ∃ l p, G.own n = .node r l p := by
    intro n
    rw [← Own.not_apart_empty]
    constructor
    · intro hn ha
      have e := (hf.own n (Set.notMem_empty n) _ ha).mpr rfl
      rw [hn] at e
      rw [← e] at ha
      exact ha
    · intro hn
      -- the page is not apart afterwards either, and the page table has no pages any more
      have ha : ¬ (G'.own n).Apart r ∅ := fun ha => by
        rw [← (hf.own n (Set.notMem_empty n) _ ha).mp rfl] at ha
        exact hn ha
      obtain e | ⟨l, p, e⟩ := (Own.not_apart_empty _).mp ha
      · exact e
      · exact absurd (h'.node n r l p e) hdead
  constructor
  · intro a ha hPa
    obtain ⟨n, l, p, rfl, hn⟩ := (hmem a).mp ha
    have hfree := ((hP.unique h.free _).mp hPa).2
    rw [show 4096 * n / 4096 = n by omega, hn] at hfree
    cases hfree
  · refine h'.free.congr (fun _ _ => rfl) fun a => ?_
    rw [hP.unique h.free a, hmem, hfree]
    constructor
    · rintro (⟨ha, hn⟩ | ⟨n, l, p, rfl, hn⟩)
      · exact ⟨ha, .inl hn⟩
      · rw [show 4096 * n / 4096 = n by omega]
        exact ⟨by omega, .inr ⟨l, p, hn⟩⟩
    · rintro ⟨ha, hn | ⟨l, p, hn⟩⟩
      · exact .inl ⟨ha, hn⟩
      · exact .inr ⟨a / 4096, l, p, by omega, hn⟩

/-! ## `mappages` and `uvmunmap` -/

/-- The words of `k` new entries from `v` on. -/
def enterWords (L : ℕ → ℕ) (v k pa perm : ℕ) : ℕ → ℕ := fun u =>
  if v ≤ u ∧ u < v + k then 1024 * ((pa + 4096 * (u - v)) % 2 ^ 64 / 4096) + (perm ||| PTE_V) else L u

theorem enterWords_zero (L : ℕ → ℕ) (v pa perm : ℕ) : enterWords L v 0 pa perm = L := by
  funext u
  exact if_neg (by omega)

theorem enterWords_succ (L : ℕ → ℕ) (hpa : pa < 2 ^ 64) :
    enterWords (update L v (1024 * (pa / 4096) + (perm ||| PTE_V))) (v + 1) k
      ((pa + 4096) % 2 ^ 64) perm = enterWords L v (k + 1) pa perm := by
  funext u
  unfold enterWords
  by_cases hu : u = v
  · subst hu
    rw [if_neg (by omega), if_pos (by omega), update_self, Nat.sub_self, Nat.mul_zero,
      Nat.add_zero, Nat.mod_eq_of_lt hpa]
  · rw [update_of_ne hu]
    by_cases hin : v ≤ u ∧ u < v + (k + 1)
    · rw [if_pos (by omega), if_pos hin, Nat.mod_add_mod,
        show pa + 4096 + 4096 * (u - (v + 1)) = pa + 4096 * (u - v) by omega]
    · rw [if_neg (by omega), if_neg hin]

theorem mapLoop_plain (x : H) (h : MemOk cfg owns s G) (hr : G.live r) (hv : v + n < 2 ^ 26)
    (h0 : ∀ u, v ≤ u → u ≤ v + n → G.leaf r u = 0) (hown : ∀ u, ¬ owns r u) (hpa : pa < 2 ^ 64)
    (hp : perm < 1024) :
    Spec (mapLoop cfg (4096 * r) perm n (4096 * v) pa) s (fun res s' => ∃ G' k,
      MemOk cfg owns s' G' ∧ (if res then k = n + 1 else k < n + 1) ∧
      Extends r (enterWords (G.leaf r) v k pa perm) s s' G G') Never := by
  induction n generalizing v pa s G with
  | zero =>
    rw [mapLoop]
    refine (mapOne_plain x h hr hv (h0 v le_rfl le_rfl) (hown v) hpa hp).imp ?_
    rintro res s' ⟨G', h', -, -, hext⟩
    cases res with
    | true =>
      refine ⟨G', 1, h', rfl, ?_⟩
      rw [← enterWords_succ _ hpa, enterWords_zero]
      exact hext
    | false =>
      refine ⟨G', 0, h', Nat.one_pos, ?_⟩
      rw [enterWords_zero]
      exact hext
  | succ n ih =>
    rw [mapLoop, spec_bind]
    refine (mapOne_plain x h hr (by omega) (h0 v le_rfl (by omega)) (hown v) hpa hp).imp ?_
    rintro res s1 ⟨G1, h1, -, -, hext⟩
    cases res with
    | true =>
      rw [if_pos rfl] at hext ⊢
      have hleaf : ∀ u, v + 1 ≤ u → u ≤ v + 1 + n → G1.leaf r u = 0 := by
        intro u hu hu'
        rw [hext.leaf, update_of_ne (by omega)]
        exact h0 u (by omega) (by omega)
      refine (ih h1 ((hext.live r).mpr hr) (by omega) hleaf (Nat.mod_lt _ (by norm_num))).imp ?_
      rintro res s' ⟨G', k, h', hk, hext'⟩
      rw [hext.leaf, show PGSIZE = 4096 from rfl, enterWords_succ _ hpa] at hext'
      refine ⟨G', k + 1, h', ?_, hext.trans hext'⟩
      cases res with
      | true => exact congrArg Nat.succ hk
      | false => exact Nat.succ_lt_succ hk
    | false =>
      rw [if_neg (by decide)] at hext ⊢
      rw [spec_pure]
      refine ⟨G1, 0, h1, Nat.succ_pos _, ?_⟩
      rw [enterWords_zero]
      exact hext

theorem unmapLoop_held {doFree : Bool} {x : H} (h : MemOk cfg owns s G) (hr : G.live r)
    (hown : ∀ u, ¬ owns r u) (hv : v + n ≤ 2 ^ 26)
    (hmapped : ∀ u, v ≤ u → u < v + n → G.leaf r u ≠ 0 ∧ G.leaf r u % 1024 ≠ 1)
    (hheld : doFree = true → ∀ u, v ≤ u → u < v + n → G.own (G.leaf r u / 1024) = .held x)
    (hinj : doFree = true → ∀ u u', v ≤ u → u < v + n → v ≤ u' → u' < v + n →
      G.leaf r u / 1024 = G.leaf r u' / 1024 → u = u') :
    Spec (unmapLoop cfg (4096 * r) doFree n (4096 * v)) s (fun _ s' => ∃ G',
      MemOk cfg owns s' G' ∧ G'.live r ∧
      (∀ u, G'.leaf r u = if v ≤ u ∧ u < v + n then 0 else G.leaf r u) ∧
      ∀ k, G.own k = .held x → (doFree = true → ∀ u, v ≤ u → u < v + n → k ≠ G.leaf r u / 1024) →
        G'.own k = .held x) Never := by
  refine unmapLoop_induct owns (G := G) (P := fun u s' G' => MemOk cfg owns s' G' ∧ G'.live r ∧
    (∀ u', G'.leaf r u' = if v ≤ u' ∧ u' < u then 0 else G.leaf r u') ∧
    ∀ k, G.own k = .held x →
      (doFree = true → ∀ u', v ≤ u' → u' < u → k ≠ G.leaf r u' / 1024) → G'.own k = .held x) ?_ ?_
  · rintro u s1 G1 hu hu' ⟨h1, hr1, hleaf, hkeep⟩
    obtain ⟨hL, hflags⟩ := hmapped u hu hu'
    have hLu : G1.leaf r u = G.leaf r u := by rw [hleaf, if_neg (by omega)]
    rw [hLu]
    -- the page was not freed in an earlier round
    have hpage : doFree = true → G1.own (G.leaf r u / 1024) = .held x := fun hd =>
      hkeep _ (hheld hd u hu hu') fun _ u' h1 h2 e => by
        have := hinj hd u u' hu hu' h1 (by omega) e
        omega
    have hleaf' : ∀ G2 : Ghost H, (∀ u', G2.leaf r u' = if u' = u then 0 else G1.leaf r u') →
        ∀ u', G2.leaf r u' = if v ≤ u' ∧ u' < u + 1 then 0 else G.leaf r u' := by
      intro G2 h2 u'
      rw [h2, hleaf]
      by_cases e : u' = u
      · rw [if_pos e, if_pos (by omega)]
      · rw [if_neg e]
        by_cases hin : v ≤ u' ∧ u' < u
        · rw [if_pos hin, if_pos (by omega)]
        · rw [if_neg hin, if_neg (by omega)]
    refine ⟨h1, hr1, by omega, hL, hflags, fun hd => by rw [hpage hd]; exact nofun, fun k hk => ?_⟩
    by_cases hd : doFree = true
    · rw [if_pos hd]
      have hne : k ≠ G.leaf r u / 1024 := by
        intro e
        rw [e, hpage hd] at hk
        cases hk
      have h2 := (h1.free_held (hpage hd)).unmap_plain (by rwa [give_ne _ _ hne]) (hown u)
      refine ⟨_, h2, hr1, hleaf' _ fun u' => setLeaf_eq .., fun k' hk' hfree => ?_⟩
      have hne' := hfree hd u hu (Nat.lt_succ_self u)
      exact (give_ne _ _ hne').trans (hkeep k' hk' fun hd u' h1 h2 => hfree hd u' h1 (by omega))
    · rw [if_neg hd]
      exact ⟨_, h1.unmap_plain hk (hown u), hr1, hleaf' _ fun u' => setLeaf_eq ..,
        fun k' hk' _ => hkeep k' hk' fun hd' => absurd hd' hd⟩
  · exact ⟨h, hr, fun u' => by rw [if_neg (by omega)], fun k hk _ => hk⟩

end Table

/-! ## Refinement -/

/-- The page table `r` represents the map `M`, and the pages `A` are in use for other things. -/
structure PtRep (cfg : Config) (r : ℕ) (A : Set ℕ) (s : Phys) (G : Ghost Unit) (M : PageMap) :
    Prop where
  ok : MemOk cfg (fun _ _ => False) s G
  live : G.live r
  map : ∀ v, leafOf (G.leaf r v) = M v
  flags : ∀ v, G.leaf r v % 1024 ≠ 1
  used : ∀ a ∈ A, a % 4096 = 0 ∧ G.own (a / 4096) = .held ()

section Ops

variable {cfg : Config} {s s' : Phys} {G G' : Ghost Unit} {M M' : PageMap} {A : Set ℕ} {P : ℕ → Prop}
  {r va size pa perm npages : ℕ} {doFree : Bool}

theorem PtRep.translation_eq (h : PtRep cfg r A s G M) (hva : va < MAXVA) :
    translation cfg s (4096 * r) va = M (va / 4096) := by
  unfold translation
  rw [h.ok.pte_eq h.live hva, h.map]

theorem PtRep.leaf_eq_zero (h : PtRep cfg r A s G M) (v : ℕ) : M v = none ↔ G.leaf r v = 0 := by
  rw [← h.map]
  exact (h.ok.tree r h.live).leafOf_eq_none v

theorem flags_ne (hp : perm < 1024) (hx : perm &&& (PTE_R ||| PTE_W ||| PTE_X) ≠ 0) (n : ℕ) :
    (1024 * n + (perm ||| PTE_V)) % 1024 ≠ 1 := by
  have hlt := (map_word (k := n) hp).2.1
  intro e
  rw [Nat.mul_add_mod, Nat.mod_eq_of_lt hlt] at e
  have hand := congrArg (· &&& (PTE_R ||| PTE_W ||| PTE_X)) e
  simp only [Nat.and_or_distrib_right] at hand
  rw [show PTE_V &&& (PTE_R ||| PTE_W ||| PTE_X) = 0 by decide, Nat.or_zero] at hand
  exact hx hand

section

variable (h : PtRep cfg r A s G M)
include h

theorem PtRep.enter {v k : ℕ} (h' : MemOk cfg (fun _ _ => False) s' G')
    (hext : Extends r (enterWords (G.leaf r) v k pa perm) s s' G G') (hp : perm < 1024)
    (hx : perm &&& (PTE_R ||| PTE_W ||| PTE_X) ≠ 0) :
    PtRep cfg r A s' G' (M.enter v k pa perm) where
  ok := h'
  live := (hext.live r).mpr h.live
  map u := by
    rw [hext.leaf, enterWords, PageMap.enter]
    by_cases hu : v ≤ u ∧ u < v + k
    · rw [if_pos hu, if_pos hu, leafOf_mapped hp, pgrounddown_eq]
      rfl
    · rw [if_neg hu, if_neg hu, h.map]
  flags u := by
    rw [hext.leaf, enterWords]
    split
    · exact flags_ne hp hx _
    · exact h.flags u
  used a ha := by
    obtain ⟨ha0, hheld⟩ := h.used a ha
    exact ⟨ha0, (hext.frame.held (Set.notMem_empty _) ()).mpr hheld⟩

theorem PtRep.mappages (ho : (PtOp.map va size pa perm).Ok cfg (4096 * r) s A) :
    Spec (mappages cfg (4096 * r) va size pa perm) s (fun res s' => ∃ G' M',
      PtStep M (.map va size pa perm) (.mapped res) M' ∧ PtRep cfg r A s' G' M') Never := by
  obtain ⟨hsize, hmax, hpa, hp, hx, hnone⟩ := ho
  unfold MAXVA at hmax
  have hcount : (4096 * ((va + size - 1) / 4096) - 4096 * (va / 4096)) / PGSIZE =
      (va + size - 1) / 4096 - va / 4096 := by
    unfold PGSIZE
    omega
  have h0 : ∀ u, va / 4096 ≤ u → u ≤ va / 4096 + ((va + size - 1) / 4096 - va / 4096) →
      G.leaf r u = 0 := by
    intro u hu hu'
    -- the first address of the range in page `u`
    have hi : max va (4096 * u) - va < size := by omega
    have htrans := hnone _ hi
    rw [h.translation_eq (by unfold MAXVA; omega),
      show (va + (max va (4096 * u) - va)) / 4096 = u by omega] at htrans
    exact (h.leaf_eq_zero u).mp htrans
  unfold Mem.mappages
  rw [if_neg (by omega)]
  dsimp only
  rw [pgrounddown_eq, pgrounddown_eq, hcount]
  refine (mapLoop_plain () h.ok h.live (by omega) h0 (fun _ => id) hpa hp).imp ?_
  rintro res s' ⟨G', k, h', hk, hext⟩
  refine ⟨G', _, ?_, h.enter h' hext hp hx⟩
  cases res with
  | true =>
    rw [show k = _ from hk]
    exact .mapAll va size pa perm
  | false => exact .mapSome va size pa perm k hk

theorem PtRep.unmapAddr_eq {i : ℕ} (hva : va % 4096 = 0) (hi : va + PGSIZE * i < MAXVA) :
    unmapAddr cfg (4096 * r) s va i = 4096 * (G.leaf r (va / 4096 + i) / 1024) := by
  unfold unmapAddr
  rw [h.ok.pte_eq h.live hi, pte2pa_eq,
    show (va + PGSIZE * i) / 4096 = va / 4096 + i by unfold PGSIZE; omega]

theorem PtRep.uvmunmap (ho : (PtOp.unmap va npages doFree).Ok cfg (4096 * r) s A) :
    Spec (uvmunmap cfg (4096 * r) va npages doFree) s (fun _ s' => ∃ G',
      PtRep cfg r ((PtOp.unmap va npages doFree).used cfg (4096 * r) s A .none) s' G'
        (M.remove (va / PGSIZE) npages)) Never := by
  obtain ⟨hva, hmax, hmapped, hfree⟩ := ho
  obtain ⟨v, rfl⟩ : ∃ v, va = 4096 * v := ⟨va / PGSIZE, by unfold PGSIZE at *; omega⟩
  have hv : 4096 * v / PGSIZE = v := by
    unfold PGSIZE
    omega
  unfold PGSIZE MAXVA at hmax
  have hlt : ∀ u, v ≤ u → u < v + npages → 4096 * v + PGSIZE * (u - v) < MAXVA := by
    unfold PGSIZE MAXVA
    intro u hu hu'
    omega
  have haddr : ∀ u, v ≤ u → u < v + npages →
      unmapAddr cfg (4096 * r) s (4096 * v) (u - v) = 4096 * (G.leaf r u / 1024) := by
    intro u hu hu'
    rw [h.unmapAddr_eq (by omega) (hlt u hu hu'), show 4096 * v / 4096 + (u - v) = u by omega]
  have hleaf : ∀ u, v ≤ u → u < v + npages → G.leaf r u ≠ 0 ∧ G.leaf r u % 1024 ≠ 1 := by
    intro u hu hu'
    refine ⟨fun e => hmapped (u - v) (by omega) ?_, h.flags u⟩
    rw [h.translation_eq (hlt u hu hu'),
      show (4096 * v + PGSIZE * (u - v)) / 4096 = u by unfold PGSIZE; omega]
    exact (h.leaf_eq_zero u).mpr e
  have hheld : doFree = true → ∀ u, v ≤ u → u < v + npages →
      G.own (G.leaf r u / 1024) = .held () := by
    intro hd u hu hu'
    have hmem := (hfree hd).1 (u - v) (by omega)
    rw [haddr u hu hu'] at hmem
    have hown := (h.used _ hmem).2
    rwa [show 4096 * (G.leaf r u / 1024) / 4096 = G.leaf r u / 1024 by omega] at hown
  have hinj : doFree = true → ∀ u u', v ≤ u → u < v + npages → v ≤ u' → u' < v + npages →
      G.leaf r u / 1024 = G.leaf r u' / 1024 → u = u' := by
    intro hd u u' hu hu' hw hw' e
    have := (hfree hd).2 (u - v) (by omega) (u' - v) (by omega)
      (by rw [haddr u hu hu', haddr u' hw hw', e])
    omega
  unfold Mem.uvmunmap
  rw [if_neg (not_not.mpr hva)]
  refine (unmapLoop_held h.ok h.live (fun _ => id) (by omega) hleaf hheld hinj).imp ?_
  rintro _ s' ⟨G', h', hr', hleaf', hkeep⟩
  refine ⟨G', h', hr', fun u => ?_, fun u => ?_, fun a ha => ?_⟩
  · rw [hleaf', PageMap.remove, hv]
    split
    · exact leafOf_zero
    · exact h.map u
  · rw [hleaf']
    split
    · decide
    · exact h.flags u
  · -- a page that is still in use was not freed
    have hmem : a ∈ A ∧ (doFree = true →
        ¬ ∃ i < npages, a = unmapAddr cfg (4096 * r) s (4096 * v) i) := by
      cases doFree with
      | false => exact ⟨ha, nofun⟩
      | true => exact ⟨ha.1, fun _ => ha.2⟩
    obtain ⟨ha0, hown⟩ := h.used a hmem.1
    refine ⟨ha0, hkeep _ hown fun hd u hu hu' e => ?_⟩
    exact hmem.2 hd ⟨u - v, by omega, by rw [haddr u hu hu']; omega⟩

theorem PtRep.step {o : PtOp} (ho : o.Ok cfg (4096 * r) s A) :
    Spec (o.exec cfg (4096 * r)) s (fun res s' => ∃ G' M', PtStep M o res M' ∧
      PtRep cfg r (o.used cfg (4096 * r) s A res) s' G' M') Never := by
  cases o with
  | map va size pa perm =>
    refine (h.mappages ho).bind fun res s' h' => ?_
    exact spec_pure.mpr h'
  | unmap va npages doFree =>
    refine (h.uvmunmap ho).bind ?_
    rintro _ s' ⟨G', h'⟩
    exact spec_pure.mpr ⟨G', _, .unmap va npages doFree, h'⟩
  | kalloc =>
    refine (kalloc_spec h.ok).bind ?_
    rintro (_ | pa) s' h1
    · exact spec_pure.mpr ⟨G, M, .kalloc none, h1.1, h.live, h.map, h.flags, h.used⟩
    · obtain ⟨n, rfl, hfree, h1, -⟩ := h1
      refine spec_pure.mpr ⟨_, M, .kalloc _, h1 (), h.live, h.map, h.flags, fun a ha => ?_⟩
      obtain rfl | ha := ha
      · rw [show 4096 * n / 4096 = n by omega]
        exact ⟨by omega, give_self ..⟩
      · obtain ⟨ha0, hown⟩ := h.used a ha
        have hne : a / 4096 ≠ n := by
          intro e
          rw [e, hfree] at hown
          cases hown
        exact ⟨ha0, (give_ne _ _ hne).trans hown⟩
  | kfree pa =>
    obtain ⟨hpa, hown⟩ := h.used pa ho
    obtain ⟨n, rfl⟩ : ∃ n, pa = 4096 * n := ⟨pa / 4096, by omega⟩
    rw [show 4096 * n / 4096 = n by omega] at hown
    simp only [PtOp.exec]
    rw [spec_bind, spec_of_eq_ok (kfree_eq h.ok (by rw [hown]; exact nofun)), spec_pure]
    refine ⟨_, M, .kfree _, h.ok.free_held hown, h.live, h.map, h.flags, fun a ha => ?_⟩
    obtain ⟨ha0, hown'⟩ := h.used a ha.1
    have hne : a / 4096 ≠ n := fun e => ha.2 (by rw [Set.mem_singleton_iff]; omega)
    exact ⟨ha0, (give_ne _ _ hne).trans hown'⟩

theorem PtRep.run {ops : List PtOp} (hp : PtProvided cfg (4096 * r) A s ops) :
    Spec (ptExec cfg (4096 * r) ops) s (fun rs s' => ∃ A' G' M', PtRun M ops rs M' ∧
      PtRep cfg r A' s' G' M') Never := by
  induction ops generalizing A s G M with
  | nil =>
    rw [ptExec, spec_pure]
    exact ⟨A, G, M, .nil M, h⟩
  | cons o ops ih =>
    rw [ptExec]
    refine (h.step hp.1).bind_of_ok ?_
    rintro res s1 hrun ⟨G1, M1, hstep, h1⟩
    refine (ih h1 (hp.2 res s1 hrun)).bind ?_
    rintro rs s' ⟨A', G', M', hrun', h'⟩
    exact spec_pure.mpr ⟨A', G', M', .cons hstep hrun', h'⟩

end

/-- A free list, and pages that are in use for whatever purpose. -/
theorem exists_memOk (hfree : FreeList s.mem s.freelist P)
    (hP : ∀ a, P a → a % PGSIZE = 0 ∧ cfg.kend ≤ a ∧ a < PHYSTOP) :
    ∃ G : Ghost Unit, MemOk cfg (fun _ _ => False) s G ∧
      ∀ n, cfg.kend ≤ 4096 * n → 4096 * n < PHYSTOP → ¬ P (4096 * n) → G.own n = .held () := by
  classical
  have hfree_iff : ∀ n, (if P (4096 * n) then Own.free else
      if cfg.kend ≤ 4096 * n ∧ 4096 * n < PHYSTOP then .held () else .none) = Own.free ↔
        P (4096 * n) := by
    intro n
    split
    · exact iff_of_true rfl ‹_›
    · refine iff_of_false ?_ ‹_›
      split <;> exact nofun
  refine ⟨⟨fun n => if P (4096 * n) then .free else
    if cfg.kend ≤ 4096 * n ∧ 4096 * n < PHYSTOP then .held () else .none,
    fun _ _ => 0, fun _ => False⟩, ⟨fun n => ?_, ?_, nofun, ?_, ?_⟩, ?_⟩
  · by_cases hPn : P (4096 * n)
    · exact iff_of_true (by simp [hPn]) (hP _ hPn).2
    · by_cases hn : cfg.kend ≤ 4096 * n ∧ 4096 * n < PHYSTOP
      · exact iff_of_true (by simp [hPn, hn]) hn
      · exact iff_of_false (by simp [hPn, hn]) hn
  · refine hfree.congr (fun _ _ => rfl) fun a => ?_
    rw [hfree_iff]
    constructor
    · rintro ⟨ha, hPa⟩
      rwa [show 4096 * (a / 4096) = a by omega] at hPa
    · intro hPa
      have ha : a % 4096 = 0 := (hP a hPa).1
      rw [show 4096 * (a / 4096) = a by omega]
      exact ⟨ha, hPa⟩
  · intro n r l p hn
    dsimp only at hn
    split at hn
    · cases hn
    · split at hn <;> cases hn
  · intro n r v
    refine iff_of_false ?_ fun h => h.1
    dsimp only
    split
    · exact nofun
    · split <;> exact nofun
  · intro n hlo hhi hPn
    dsimp only
    rw [if_neg hPn, if_pos ⟨hlo, hhi⟩]

/-- A page table that `uvmcreate` returns is an empty map. Calls of `mappages` and `uvmunmap` do to it
what `PtStep` says, and when it is empty again, `freewalk` puts each of its pages on the free list. -/
theorem pagetable_is_map (hfree : FreeList s.mem s.freelist P)
    (hP : ∀ a, P a → a % PGSIZE = 0 ∧ cfg.kend ≤ a ∧ a < PHYSTOP)
    (hA : ∀ a ∈ A, a % PGSIZE = 0 ∧ cfg.kend ≤ a ∧ a < PHYSTOP ∧ ¬ P a) :
    Spec (uvmcreate cfg) s (fun res s0 => ∀ pt, res = some pt → ∀ ops, PtProvided cfg pt A s0 ops →
        Spec (ptExec cfg pt ops) s0 (fun rs s' => ∃ M, PtRun (fun _ => none) ops rs M ∧
          (∀ va < MAXVA, translation cfg s' pt va = M (va / PGSIZE)) ∧
          ((∀ v, M v = none) → Spec (freewalk cfg 3 pt) s' (fun _ s'' =>
            ∀ P', FreeList s'.mem s'.freelist P' → (∀ a ∈ tablePages s'.mem 2 pt, ¬ P' a) ∧
              FreeList s''.mem s''.freelist fun a => P' a ∨ a ∈ tablePages s'.mem 2 pt) Never))
          Never) Never := by
  obtain ⟨G, h, hheld⟩ := exists_memOk hfree hP
  refine (uvmcreate_spec () h).imp ?_
  rintro res s0 ⟨G0, h0, hres⟩ pt rfl ops hops
  obtain ⟨r, rfl, -, hlive, hleaf, hframe⟩ := hres
  have hused : ∀ a ∈ A, a % 4096 = 0 ∧ G0.own (a / 4096) = .held () := by
    intro a ha
    obtain ⟨ha0, hlo, hhi, hPa⟩ := hA a ha
    have e : 4096 * (a / 4096) = a := by
      unfold PGSIZE at ha0
      omega
    refine ⟨ha0, (hframe.held (Set.notMem_empty _) ()).mpr (hheld _ ?_ ?_ ?_)⟩ <;> rwa [e]
  have hrep : PtRep cfg r A s0 G0 (fun _ => none) :=
    ⟨h0, hlive, fun v => by rw [hleaf, leafOf_zero], fun v => by rw [hleaf]; decide, hused⟩
  refine (hrep.run hops).imp ?_
  rintro rs s' ⟨A', G', M, hrun, h'⟩
  refine ⟨M, hrun, fun va hva => h'.translation_eq hva, fun hM => ?_⟩
  exact freewalk_frees h'.ok h'.live fun v => (h'.leaf_eq_zero v).mp (hM v)

end Ops

/-- Two bytes at the border of two pages are mapped: both pages, and no other. -/
theorem pagetable_is_map_border : ∃ pt s0 s', uvmcreate smallConfig (freePhys 5) = .ok (some pt, s0) ∧
    ptExec smallConfig pt [.map 4095 2 0x1234 PTE_R] s0 = .ok ([.mapped true], s') ∧
    translation smallConfig s' pt 4095 = some (0x1000, PTE_R ||| PTE_V) ∧
    translation smallConfig s' pt 4096 = some (0x2000, PTE_R ||| PTE_V) ∧
    ∀ va, 8192 ≤ va → va < MAXVA → translation smallConfig s' pt va = none := by
  have hyields : yields (uvmcreate smallConfig (freePhys 5)) = true := by decide +kernel
  have hmapped : ((uvmcreate smallConfig (freePhys 5)).toOption.bind fun r => r.1.bind fun pt =>
      (ptExec smallConfig pt [.map 4095 2 0x1234 PTE_R] r.2).toOption.map Prod.fst) =
        some [.mapped true] := by decide +kernel
  obtain ⟨pt, s0, hcreate⟩ := exists_of_yields hyields
  have h : MemOk smallConfig (fun _ _ => False) (freePhys 5) (freeGhost 5) := free_memOk (by decide)
  have hP : ∀ a, a % 4096 = 0 ∧ (freeGhost 5).own (a / 4096) = .free →
      a % PGSIZE = 0 ∧ smallConfig.kend ≤ a ∧ a < PHYSTOP := by
    rintro a ⟨ha, hown⟩
    have hm := (h.managed (a / 4096)).mp (by simp [hown])
    rw [show 4096 * (a / 4096) = a by omega] at hm
    exact ⟨ha, hm⟩
  have hmap := (pagetable_is_map (A := ∅) h.free hP (by simp)).of_ok hcreate pt rfl
  -- nothing is mapped at first
  have hempty : ∀ va < MAXVA, translation smallConfig s0 pt va = none := by
    obtain ⟨M, hrun, htrans, -⟩ := (hmap [] trivial).of_ok rfl
    cases hrun
    exact htrans
  have hops : PtProvided smallConfig pt ∅ s0 [.map 4095 2 0x1234 PTE_R] := by
    refine ⟨⟨by decide, by decide, by decide, by decide, by decide, fun i hi => ?_⟩,
      fun _ _ _ => trivial⟩
    exact hempty _ (by unfold MAXVA; omega)
  obtain ⟨rs, s', hrun, M, hM, htrans, -⟩ := (hmap _ hops).exists_ok
  rw [hcreate] at hmapped
  dsimp only [Except.toOption, Option.bind_some] at hmapped
  rw [hrun] at hmapped
  cases hM with
  | cons hstep hnil =>
    cases hnil
    cases hstep with
    | mapSome => cases hmapped
    | mapAll =>
      refine ⟨pt, s0, s', hcreate, hrun, htrans 4095 (by decide), htrans 4096 (by decide), ?_⟩
      intro va hlo hhi
      rw [htrans va hhi]
      exact if_neg (by unfold pageCount PGSIZE; omega)

end TatakOS.Mem
