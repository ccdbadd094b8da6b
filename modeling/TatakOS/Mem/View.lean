import TatakOS.Mem.Access
import TatakOS.Mem.User

/-!
# What a page table shows

`pte` is the entry that `walk` finds for an address, and `byteAt` the byte behind it. What `Frame`
says about pages and their owners is turned into statements about these two.
-/

namespace TatakOS.Mem

/-- The entry for `va`, or 0 if there is no table for it. -/
def pte (cfg : Config) (s : Phys) (pagetable va : ℕ) : ℕ :=
  match walk cfg pagetable va false s with
  | .ok (some a, _) => s.mem.get a 8
  | _ => 0

/-- The byte at `va`, if `va` is mapped. -/
def byteAt (cfg : Config) (s : Phys) (pagetable va : ℕ) : UInt8 :=
  s.mem (PTE2PA (pte cfg s pagetable va) + va % PGSIZE)

variable {H : Type} {cfg : Config} {owns : ℕ → ℕ → Prop} {s s' : Phys} {G G' : Ghost H}
  {own : ℕ → Own H} {L : ℕ → ℕ} {D : Set ℕ} {n r r' v va : ℕ}

/-! ## Entries -/

theorem px_page (l va : ℕ) : PX l (4096 * (va / 4096)) = PX l va := by
  unfold PX
  rw [Nat.shiftRight_add, Nat.shiftRight_add]
  congr 2
  rw [Nat.shiftRight_eq_div_pow, Nat.shiftRight_eq_div_pow]
  omega

theorem maxva_page (va : ℕ) : MAXVA ≤ 4096 * (va / 4096) ↔ MAXVA ≤ va := by
  unfold MAXVA
  rw [Nat.shiftLeft_eq]
  omega

theorem walk_page (pagetable va : ℕ) (alloc : Bool) :
    walk cfg pagetable (4096 * (va / 4096)) alloc = walk cfg pagetable va alloc := by
  unfold walk walkLevel
  simp only [px_page, maxva_page]

theorem Tree.pte_eq (ht : Tree s.mem own r L) (hva : va < MAXVA) :
    pte cfg s (4096 * r) va = L (va / 4096) := by
  have hv : va / 4096 < 2 ^ 26 := by
    unfold MAXVA at hva
    rw [Nat.shiftLeft_eq] at hva
    omega
  have hspec : Spec (walk cfg (4096 * r) (4096 * (va / 4096)) false) s _ Never :=
    walk_spec_false ht hv
  obtain ⟨res, s', e, rfl, hres⟩ := hspec.exists_ok
  unfold pte
  rw [← walk_page, e]
  cases res with
  | none =>
    by_contra hne
    obtain ⟨k, hk⟩ := ht.dom _ (Ne.symm hne)
    exact hres k hk
  | some a =>
    obtain ⟨k, rfl, hk⟩ := hres
    exact ht.get_entry hk

theorem MemOk.pte_eq (h : MemOk cfg owns s G) (hr : G.live r) (hva : va < MAXVA) :
    pte cfg s (4096 * r) va = G.leaf r (va / 4096) :=
  (h.tree r hr).pte_eq hva

theorem MemOk.byteAt_eq (h : MemOk cfg owns s G) (hr : G.live r) (hva : va < MAXVA) :
    byteAt cfg s (4096 * r) va = s.mem (4096 * (G.leaf r (va / 4096) / 1024) + va % 4096) := by
  unfold byteAt
  rw [h.pte_eq hr hva, pte2pa_eq]
  rfl

theorem Tree.valid_iff (ht : Tree s.mem own r L) : L v &&& PTE_V ≠ 0 ↔ L v ≠ 0 := by
  rw [and_pte_v]
  have := ht.valid v
  omega

theorem trapframe_eq : TRAPFRAME = 4096 * top := by decide

theorem lt_maxva_of_lt_trapframe (h : va < TRAPFRAME) : va < MAXVA ∧ va / 4096 < top := by
  have hmax : MAXVA = 4096 * (top + 2) := by decide
  rw [trapframe_eq] at h
  omega

/-! ## What stays -/

theorem Frame.page (hf : Frame r D ∅ s s' G G') (h : MemOk cfg owns s G)
    (h' : MemOk cfg owns s' G') (hr : G.live r') (ho : owns r' v) (hL : G.leaf r' v ≠ 0)
    (hv : r' = r → v ∉ D) :
    G'.leaf r' v / 1024 = G.leaf r' v / 1024 ∧ SamePage s.mem s'.mem (G.leaf r' v / 1024) := by
  have hown : G.own (G.leaf r' v / 1024) = .leaf r' v := (h.leaf _ r' v).mpr ⟨hr, ho, hL, rfl⟩
  have hown' := (hf.own _ (Set.notMem_empty _) (.leaf r' v) hv).mpr hown
  refine ⟨((h'.leaf _ r' v).mp hown').2.2.2, ?_⟩
  apply hf.bytes _ (Set.notMem_empty _)
  rw [hown]
  exact hv

theorem Frame.byteAt_eq (hf : Frame r D ∅ s s' G G') (h : MemOk cfg owns s G)
    (h' : MemOk cfg owns s' G') (hr : G.live r') (hr' : G'.live r') (hva : va < MAXVA)
    (ho : owns r' (va / 4096)) (hL : G.leaf r' (va / 4096) ≠ 0)
    (hv : r' = r → va / 4096 ∉ D) : byteAt cfg s' (4096 * r') va = byteAt cfg s (4096 * r') va := by
  obtain ⟨e, hsame⟩ := hf.page h h' hr ho hL hv
  rw [h.byteAt_eq hr hva, h'.byteAt_eq hr' hva, e]
  exact hsame _ (by omega)

theorem Frame.own_of_free (hf : Frame r D ∅ s s' G G') (hn : G.own n = .free) :
    G'.own n = .free ∨ (∃ l p, G'.own n = .node r l p) ∨ ∃ v ∈ D, G'.own n = .leaf r v := by
  have hkeep : ¬ (G'.own n).Apart r D := by
    intro ha
    have := (hf.own n (Set.notMem_empty n) _ ha).mp rfl
    rw [← this, hn] at ha
    exact ha
  cases e : G'.own n with
  | none | held x =>
    rw [e] at hkeep
    exact absurd trivial hkeep
  | free => exact .inl rfl
  | node r' l p =>
    rw [e] at hkeep
    obtain rfl : r' = r := not_not.mp hkeep
    exact .inr (.inl ⟨l, p, rfl⟩)
  | leaf r' v =>
    rw [e] at hkeep
    obtain ⟨rfl, hv⟩ : r' = r ∧ v ∈ D := by
      simpa [Own.Apart] using hkeep
    exact .inr (.inr ⟨v, hv, rfl⟩)

/-! ## A small memory -/

/-- Page `n` is the root of an empty page table, and the pages up to `PHYSTOP` are in use. -/
def bareGhost (cfg : Config) (r : ℕ) : Ghost Unit where
  own n :=
    if n = r then .node r 2 0
    else if cfg.kend ≤ 4096 * n ∧ 4096 * n < PHYSTOP then .held () else .none
  leaf _ _ := 0
  live r' := r' = r

/-- `k` pages from page `n` on become free. -/
def Phys.withFree (s : Phys) (n : ℕ) : ℕ → Phys
  | 0 => s
  | k + 1 => (s.withFree n k).freed (n + k)

def Ghost.withFree (G : Ghost H) (n : ℕ) : ℕ → Ghost H
  | 0 => G
  | k + 1 => (G.withFree n k).give (n + k) .free

theorem withFree_own {j k : ℕ} (hj : j < n ∨ n + k ≤ j) : (G.withFree n k).own j = G.own j := by
  induction k with
  | zero => rfl
  | succ k ih => rw [Ghost.withFree, give_ne _ _ (by omega), ih (by omega)]

theorem MemOk.withFree {k : ℕ} {x : H} (h : MemOk cfg owns s G)
    (hheld : ∀ i < k, G.own (n + i) = .held x) :
    MemOk cfg owns (s.withFree n k) (G.withFree n k) := by
  induction k with
  | zero => exact h
  | succ k ih =>
    refine (ih fun i hi => hheld i (by omega)).free_held (x := x) ?_
    rw [withFree_own (.inr le_rfl), hheld k (by omega)]

theorem UserPt.withFree {N k : ℕ} (h : UserPt G r N) : UserPt (G.withFree n k) r N := by
  induction k with
  | zero => exact h
  | succ k ih => exact ⟨ih.live, ih.mapped, ih.empty⟩

/-- Memory without a free page. -/
def barePhys : Phys := { mem := fun _ => 0, freelist := 0, calls := 0 }

theorem bare_memOk (hr : cfg.kend ≤ 4096 * r ∧ 4096 * r < PHYSTOP) :
    MemOk cfg owns barePhys (bareGhost cfg r) := by
  have hown : ∀ n, (bareGhost cfg r).own n = if n = r then .node r 2 0
      else if cfg.kend ≤ 4096 * n ∧ 4096 * n < PHYSTOP then .held () else .none := fun _ => rfl
  have hnode : ∀ n r' l p, (bareGhost cfg r).own n = .node r' l p → n = r ∧ r' = r := by
    intro n r' l p hn
    rw [hown] at hn
    split_ifs at hn with e
    cases hn
    exact ⟨e, rfl⟩
  refine ⟨fun n => ?_, FreeList.nil fun a ha => ?_, fun r' hr' => ?_, fun n r' l p hn => ?_,
    fun n r' v => ⟨fun hn => ?_, fun hn => absurd rfl hn.2.2.1⟩⟩
  · rw [hown]
    split_ifs with e h
    · subst e
      exact ⟨fun _ => hr, fun _ => nofun⟩
    · exact ⟨fun _ => h, fun _ => nofun⟩
    · exact ⟨fun hc => absurd rfl hc, fun hc => absurd hc h⟩
  · have := ha.2
    rw [hown] at this
    split_ifs at this
  · obtain rfl : r' = r := hr'
    refine Tree.new ?_ (fun n l p hn => (hnode n r' l p hn).1) (fun j _ => Bytes.get_zero)
      fun _ => rfl
    rw [hown, if_pos rfl]
  · exact (hnode n r' l p hn).2
  · rw [hown] at hn
    split_ifs at hn

section Small

/-- The first page behind the kernel of `smallConfig`. -/
def firstPage : ℕ := 0x80202

/-- The page table in `firstPage` maps virtual page 0, and that in the fifth page is empty. -/
def tableGhost : Ghost Unit :=
  ((((bareGhost smallConfig firstPage).give (firstPage + 1) (.node firstPage 1 (512 * 0 + 0))).give
    (firstPage + 2) (.node firstPage 0 (512 * (512 * 0 + 0) + 0))).give (firstPage + 3)
    (.leaf firstPage (512 * (512 * (512 * 0 + 0) + 0) + 0))).setLeaf firstPage
    (512 * (512 * (512 * 0 + 0) + 0) + 0) (1024 * (firstPage + 3) + 31) |>.newRoot (firstPage + 4)

/-- The first byte of virtual page 0 is 42. -/
def tablePhys : Phys where
  mem := (((Bytes.set (fun _ => 0) (4096 * firstPage + 8 * 0) 8 (1024 * (firstPage + 1) + 1)).set
    (4096 * (firstPage + 1) + 8 * 0) 8 (1024 * (firstPage + 2) + 1)).set
    (4096 * (firstPage + 3) + 8 * 0) 8 42).set
    (4096 * (firstPage + 2) + 8 * 0) 8 (1024 * (firstPage + 3) + 31)
  freelist := 0
  calls := 0

/-- And three pages are free. -/
def smallGhost : Ghost Unit := tableGhost.withFree (firstPage + 5) 3

def smallPhys : Phys := tablePhys.withFree (firstPage + 5) 3

theorem bare_held {k : ℕ} (h1 : firstPage < k) (h2 : k ≤ firstPage + 200) :
    (bareGhost smallConfig firstPage).own k = .held () := by
  have hk : smallConfig.kend ≤ 4096 * k ∧ 4096 * k < PHYSTOP := by
    show KERNBASE + 2 * PGSIZE ≤ 4096 * k ∧ 4096 * k < PHYSTOP
    unfold firstPage PHYSTOP KERNBASE PGSIZE at *
    omega
  show (if k = firstPage then _ else if _ then _ else _) = _
  rw [if_neg (by omega), if_pos hk]

theorem table_memOk : MemOk smallConfig (fun _ v => v < top) tablePhys tableGhost := by
  have hheld : ∀ k, firstPage < k → k ≤ firstPage + 4 →
      (bareGhost smallConfig firstPage).own k = .held () := fun k h1 h2 => bare_held h1 (by omega)
  have hzero : ∀ n j, entry (fun _ => 0) n j = 0 := fun _ _ => Bytes.get_zero
  have h0 : MemOk smallConfig (fun _ v => v < top) barePhys (bareGhost smallConfig firstPage) :=
    bare_memOk (by decide)
  have h1 := h0.link (n := firstPage) (k := firstPage + 1) (i := 0) rfl (by decide)
    (fun j _ => hzero _ j) (hzero _ 0) (hheld _ (by omega) (by omega))
  have h2 := h1.link (n := firstPage + 1) (k := firstPage + 2) (i := 0) (give_self _ _ _)
    (by decide) (fun j hj => (entry_set_apart hj).trans (hzero _ j))
    ((entry_set_apart (by decide)).trans (hzero _ 0))
    ((give_ne _ _ (by decide)).trans (hheld _ (by omega) (by omega)))
  have hthird : ∀ x y, (((bareGhost smallConfig firstPage).give (firstPage + 1) x).give
      (firstPage + 2) y).own (firstPage + 3) = .held () := fun x y =>
    (give_ne _ _ (by decide)).trans ((give_ne _ _ (by decide)).trans
      (hheld _ (by omega) (by omega)))
  have h2' := h2.data_held (hthird _ _) (fun _ e => samePage_set (i := 0) (w := 42) e) 0
  have h3 := h2'.map_page (n := firstPage + 2) (k := firstPage + 3) (i := 0)
    (w := 1024 * (firstPage + 3) + 31) (give_self _ _ _) (by decide) (by decide) rfl
    (hthird _ _) (by decide) (by decide)
  refine h3.new_root (n := firstPage + 4) (x := ()) ?_ fun j hj => ?_
  · have hset : ∀ (G : Ghost Unit) r v w n, (G.setLeaf r v w).own n = G.own n :=
      fun _ _ _ _ _ => rfl
    rw [hset, give_ne _ _ (by decide), give_ne _ _ (by decide), give_ne _ _ (by decide)]
    exact hheld (firstPage + 4) (by omega) (by omega)
  · refine (entry_set_apart hj).trans ?_
    refine (entry_set_apart hj).trans ?_
    refine (entry_set_apart hj).trans ?_
    exact (entry_set_apart hj).trans (hzero _ j)

theorem small_memOk : MemOk smallConfig (fun _ v => v < top) smallPhys smallGhost := by
  refine table_memOk.withFree (x := ()) fun i hi => ?_
  show (Ghost.give (Ghost.give (Ghost.give (Ghost.give _ _ _) _ _) _ _) _ _).own _ = _
  rw [give_ne _ _ (by omega), give_ne _ _ (by omega), give_ne _ _ (by omega), give_ne _ _ (by omega)]
  exact bare_held (by omega) (by omega)

theorem small_userPt : UserPt smallGhost firstPage (pages 1) := by
  have hone : pages 1 = 1 := by decide
  have hleaf : ∀ v, tableGhost.leaf firstPage v =
      if v = 0 then 1024 * (firstPage + 3) + 31 else 0 := by
    intro v
    unfold tableGhost
    rw [newRoot_leaf_ne _ (by decide), setLeaf_eq]
    rfl
  refine UserPt.withFree ⟨.inr rfl, fun v hv => ?_, fun v hv _ => ?_⟩
  · rw [hleaf, if_pos (by omega)]
    decide
  · rw [hleaf, if_neg (by omega)]

theorem small_userPt_empty : UserPt smallGhost (firstPage + 4) 0 :=
  UserPt.withFree ⟨.inl rfl, fun v hv => absurd hv (Nat.not_lt_zero v), fun v _ _ =>
    congrFun (newRoot_leaf_self _ _) v⟩

/-- `k` free pages; the others are in use. -/
def freePhys (k : ℕ) : Phys := barePhys.withFree (firstPage + 2) k

def freeGhost (k : ℕ) : Ghost Unit := (bareGhost smallConfig firstPage).withFree (firstPage + 2) k

theorem free_memOk {k : ℕ} (hk : k ≤ 100) : MemOk smallConfig owns (freePhys k) (freeGhost k) :=
  (bare_memOk (by decide)).withFree fun _ _ => bare_held (by omega) (by omega)

end Small

/-- A run ends with a result. -/
def yields {ε α σ : Type} : Except ε (Option α × σ) → Bool
  | .ok (some _, _) => true
  | _ => false

theorem exists_of_yields {ε α σ : Type} {m : Except ε (Option α × σ)} (h : yields m = true) :
    ∃ x s, m = .ok (some x, s) := by
  match m, h with
  | .ok (some x, s), _ => exact ⟨x, s, rfl⟩

end TatakOS.Mem
