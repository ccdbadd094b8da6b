import Mathlib.Data.Finset.Card
import Mathlib.Order.Interval.Finset.Nat
import TatakOS.Mem.Walk

/-!
# User memory

`UserPt G r N` says that the page table `r` maps exactly the pages `[0, N)` below the trapframe.
The functions of `vm.c` that grow, shrink, copy and free user memory move from one such state to
another, also when memory runs out half way, and none of their panics is reached.
-/

namespace TatakOS.Mem

open Function

/-- The virtual page of the trapframe; the trampoline is the next one. -/
def top : ℕ := 2 ^ 26 - 2

/-- The number of pages for a size in bytes. -/
def pages (sz : ℕ) : ℕ := (sz + 4095) / 4096

theorem pgroundup_eq {sz : ℕ} (h : sz < 2 ^ 63) : PGROUNDUP sz = 4096 * pages sz := by
  unfold PGROUNDUP PGSIZE pages
  rw [Nat.mod_eq_of_lt (by omega)]
  omega

theorem pages_mul (v : ℕ) : pages (4096 * v) = v := by
  unfold pages
  omega

structure UserPt {H : Type} (G : Ghost H) (r N : ℕ) : Prop where
  live : G.live r
  mapped : ∀ v < N, G.leaf r v % 2 = 1 ∧ G.leaf r v % 1024 ≠ 1
  empty : ∀ v, N ≤ v → v < top → G.leaf r v = 0

variable {H : Type} {cfg : Config} {owns : ℕ → ℕ → Prop} {s s' s1 : Phys} {G G' : Ghost H}
  {D D' : Set ℕ} {m' : Bytes} {n k r l p i v w N : ℕ} {x : H}

theorem UserPt.ne_zero (h : UserPt G r N) (hv : v < N) : G.leaf r v ≠ 0 ∧ G.leaf r v % 1024 ≠ 1 := by
  have := h.mapped v hv
  omega

theorem UserPt.le (h : MemOk cfg owns s G) (hu : ∀ v, owns r v ↔ v < top) (hp : UserPt G r N) :
    N ≤ 32767 := by
  have key : min N top ≤ 32767 := by
    have hpage : ∀ v < min N top, G.own (G.leaf r v / 1024) = .leaf r v := by
      intro v hv
      exact (h.leaf _ r v).mpr ⟨hp.live, (hu v).mpr (by omega), (hp.ne_zero (by omega)).1, rfl⟩
    have := Finset.card_le_card_of_injOn (s := Finset.range (min N top))
      (t := Finset.Ico (KERNBASE / 4096 + 1) (PHYSTOP / 4096)) (fun v => G.leaf r v / 1024) ?_ ?_
    · rw [Finset.card_range, Nat.card_Ico] at this
      unfold PHYSTOP KERNBASE at this
      omega
    · intro v hv
      have hv' : v < min N top := by simpa using hv
      obtain ⟨h1, h2⟩ := (h.managed (G.leaf r v / 1024)).mp (by rw [hpage v hv']; nofun)
      have h3 := cfg.kernbase_le
      have h4 := cfg.etext_eq
      have h5 := cfg.etext_le
      simp only [Finset.coe_Ico, Set.mem_Ico]
      unfold PHYSTOP KERNBASE PGSIZE at *
      omega
    · intro v hv v' hv' e
      have h1 := hpage v (by simpa using hv)
      have h2 := hpage v' (by simpa using hv')
      simp only at e
      rw [e, h2, Own.leaf.injEq] at h1
      exact h1.2.symm
  unfold top at key
  omega

theorem UserPt.lt (h : MemOk cfg owns s G) (hu : ∀ v, owns r v ↔ v < top) (hp : UserPt G r N) :
    N < top := by
  have := hp.le h hu
  unfold top
  omega

/-! ## Freeing page tables -/

/-- The page table `r` may have lost pages of a level below `l`. -/
structure Shrinks {H : Type} (r l : ℕ) (s s' : Phys) (G G' : Ghost H) : Prop where
  frame : Frame r ∅ ∅ s s' G G'
  leaf : G'.leaf = G.leaf
  live : ∀ r', G'.live r' ↔ G.live r'
  node : ∀ n l' p, l ≤ l' → G.own n = .node r l' p → G'.own n = .node r l' p
  sub : ∀ n l' p, G'.own n = .node r l' p → G.own n = .node r l' p

theorem Shrinks.refl (r l : ℕ) (s : Phys) (G : Ghost H) : Shrinks r l s s G G :=
  ⟨Frame.refl _ _ _ _ _, rfl, fun _ => Iff.rfl, fun _ _ _ _ => id, fun _ _ _ => id⟩

theorem Shrinks.trans {s'' : Phys} {G'' : Ghost H} (h : Shrinks r l s s' G G')
    (h' : Shrinks r l s' s'' G' G'') : Shrinks r l s s'' G G'' :=
  ⟨h.frame.trans h'.frame, h'.leaf.trans h.leaf, fun r' => (h'.live r').trans (h.live r'),
    fun n l' p hl hn => h'.node n l' p hl (h.node n l' p hl hn),
    fun n l' p hn => h.sub n l' p (h'.sub n l' p hn)⟩

theorem Shrinks.mono {l' : ℕ} (h : Shrinks r l s s' G G') (hl : l ≤ l') : Shrinks r l' s s' G G' :=
  ⟨h.frame, h.leaf, h.live, fun n l'' p hl' => h.node n l'' p (by omega), h.sub⟩

theorem Shrinks.entry_zero (hs : Shrinks r l s s' G G') (h : MemOk cfg owns s G)
    (h' : MemOk cfg owns s' G') {l' : ℕ} (hl : l ≤ l' + 1) (hn : G.own n = .node r (l' + 1) p)
    (hi : i < 512) (h0 : entry s.mem n i = 0) : entry s'.mem n i = 0 := by
  have hn' := hs.node n _ p hl hn
  rcases (h'.tree r (h'.node n r _ _ hn')).inner n l' p i hn' hi with ⟨e, -⟩ | ⟨k, hk, -⟩
  · exact e
  · exact absurd (hs.sub k _ _ hk) ((h.tree r (h.node n r _ _ hn)).no_child hn hi h0 k)

theorem Shrinks.unlink (hn : G.own n = .node r (l + 1) p) (hi : i < 512)
    (hk : G.own k = .node r l (512 * p + i)) :
    Shrinks r (l + 1) s { s.freed k with mem := (s.freed k).mem.set (4096 * n + 8 * i) 8 0 } G
      (G.give k .free) := by
  have hframe : Frame r ∅ ∅ s { s.freed k with
      mem := (s.freed k).mem.set (4096 * n + 8 * i) 8 0 } G (G.give k .free) :=
    Frame.free_entry hn hi (by rw [hk]; exact fun hc => hc rfl) rfl (fun _ _ => rfl)
      fun _ _ => Iff.rfl
  refine ⟨hframe, rfl, fun _ => Iff.rfl, fun n' l' p' hl hn' => ?_, fun n' l' p' hn' => ?_⟩
  · rw [give_ne, hn']
    rintro rfl
    rw [hk, Own.node.injEq] at hn'
    omega
  · rw [give_eq] at hn'
    by_cases e : n' = k
    · rw [if_pos e] at hn'
      cases hn'
    · rwa [if_neg e] at hn'

/-- What `freewalk` does to the table in page `k`: it empties it and frees it. -/
def FreedTable (cfg : Config) (owns : ℕ → ℕ → Prop) (s : Phys) (G : Ghost H) (r l k : ℕ)
    (s' : Phys) : Prop :=
  ∃ s1 G1, MemOk cfg owns s1 G1 ∧ Shrinks r l s s1 G G1 ∧
    (∀ j < 512, entry s1.mem k j = 0) ∧ s' = s1.freed k

theorem table_flags (k : ℕ) : (1024 * k + 1) &&& (PTE_R ||| PTE_W ||| PTE_X) = 0 := by
  have h : PTE_R ||| PTE_W ||| PTE_X = (2 ^ 4 - 1) &&& 14 := by decide
  rw [h, ← Nat.and_assoc, Nat.and_two_pow_sub_one_eq_mod, show (1024 * k + 1) % 2 ^ 4 = 1 by omega]
  rfl

/-- The loop over the entries of a table, with what frees the tables below. -/
theorem freeEntries_spec (sub : ℕ → Vm Unit) (is : List ℕ) (h : MemOk cfg owns s G)
    (hk : G.own k = .node r l p) (hL : ∀ v, G.leaf r v = 0) (his : ∀ i ∈ is, i < 512)
    (hsub : ∀ l' s (G : Ghost H) k p, l = l' + 1 → MemOk cfg owns s G → G.own k = .node r l' p →
      (∀ v, G.leaf r v = 0) →
      Spec (sub (4096 * k)) s (fun _ => FreedTable cfg owns s G r l' k) Never) :
    Spec (freeEntries sub (4096 * k) is) s (fun _ s' => ∃ G', MemOk cfg owns s' G' ∧
      Shrinks r l s s' G G' ∧
      ∀ j < 512, (j ∈ is ∨ entry s.mem k j = 0) → entry s'.mem k j = 0) Never := by
  induction is generalizing s G with
  | nil =>
    rw [freeEntries, spec_pure]
    exact ⟨G, h, Shrinks.refl _ _ _ _, fun j _ hj => hj.resolve_left (by simp)⟩
  | cons i is ih =>
    have hi : i < 512 := his i (by simp)
    have his' : ∀ i ∈ is, i < 512 := fun i hi => his i (by simp [hi])
    have ht := h.tree r (h.node k r l p hk)
    simp only [freeEntries, spec_bind, spec_load]
    by_cases hz : entry s.mem k i = 0
    · have hz' : s.mem.get (4096 * k + 8 * i) 8 = 0 := hz
      rw [hz', if_neg (by simp), if_neg (by simp)]
      refine (ih h hk hL his').imp ?_
      rintro _ s' ⟨G', h', hsh, hent⟩
      refine ⟨G', h', hsh, fun j hj hcase => hent j hj ?_⟩
      rcases hcase with hmem | h0
      · rcases List.mem_cons.mp hmem with rfl | hmem
        · exact .inr hz
        · exact .inl hmem
      · exact .inr h0
    · -- an entry of a table of the last level is a leaf, and there are none
      obtain ⟨l, rfl⟩ : ∃ l', l = l' + 1 := by
        refine ⟨l - 1, ?_⟩
        by_contra hl
        obtain rfl : l = 0 := by omega
        exact hz ((ht.bottom k p i hk hi).trans (hL _))
      obtain ⟨k', hk', e⟩ := (ht.inner k l p i hk hi).resolve_left fun hc => hz hc.1
      have e' : s.mem.get (4096 * k + 8 * i) 8 = 1024 * k' + 1 := e
      rw [e', if_pos ⟨by rw [and_pte_v]; omega, table_flags k'⟩, spec_bind, pte2pa_eq,
        show (1024 * k' + 1) / 1024 = k' by omega]
      refine (hsub l s G k' _ rfl h hk' hL).imp ?_
      rintro _ _ ⟨s1, G1, h1, hsh1, hz1, rfl⟩
      rw [spec_bind, spec_store]
      have hn1 := hsh1.node k _ p (by omega) hk
      have hk1 := hsh1.node k' _ _ le_rfl hk'
      have h2 := h1.unlink hn1 hi hz1 hk1
      have hsh2 := (hsh1.mono (Nat.le_succ l)).trans (Shrinks.unlink hn1 hi hk1)
      refine (ih h2 (hsh2.node k _ p le_rfl hk) (by rw [hsh2.leaf]; exact hL) his').imp ?_
      rintro _ s' ⟨G', h', hsh', hent⟩
      refine ⟨G', h', hsh2.trans hsh', fun j hj hcase => hent j hj ?_⟩
      by_cases ej : j = i
      · subst ej
        exact .inr (entry_set_same (by norm_num))
      · rcases hcase with hmem | h0
        · exact .inl ((List.mem_cons.mp hmem).resolve_left ej)
        · exact .inr (hsh2.entry_zero h h2 le_rfl hk hj h0)

theorem freewalk_spec (l : ℕ) : ∀ {s : Phys} {G : Ghost H} {k p : ℕ}, MemOk cfg owns s G →
    G.own k = .node r l p → (∀ v, G.leaf r v = 0) →
    Spec (freewalk cfg (l + 1) (4096 * k)) s (fun _ => FreedTable cfg owns s G r l k) Never := by
  have hrange : ∀ i ∈ List.range 512, i < 512 := fun i => List.mem_range.mp
  induction l with
  | zero =>
    intro s G k p h hk hL
    rw [freewalk, spec_bind]
    refine (freeEntries_spec (freewalk cfg 0) (List.range 512) h hk hL hrange
      fun l' _ _ _ _ e => absurd e (by omega)).imp ?_
    rintro _ s1 ⟨G1, h1, hsh, hent⟩
    have hk1 := hsh.node k _ p le_rfl hk
    rw [spec_of_eq_ok (kfree_eq h1 (by rw [hk1]; nofun))]
    exact ⟨s1, G1, h1, hsh, fun j hj => hent j hj (.inl (List.mem_range.mpr hj)), rfl⟩
  | succ l ih =>
    intro s G k p h hk hL
    rw [freewalk, spec_bind]
    refine (freeEntries_spec (freewalk cfg (l + 1)) (List.range 512) h hk hL hrange ?_).imp ?_
    · intro l' s' G' k' p' e h' hk' hL'
      obtain rfl : l' = l := by omega
      exact ih h' hk' hL'
    · rintro _ s1 ⟨G1, h1, hsh, hent⟩
      have hk1 := hsh.node k _ p le_rfl hk
      rw [spec_of_eq_ok (kfree_eq h1 (by rw [hk1]; nofun))]
      exact ⟨s1, G1, h1, hsh, fun j hj => hent j hj (.inl (List.mem_range.mpr hj)), rfl⟩

theorem freewalk_root (h : MemOk cfg owns s G) (hr : G.live r) (hL : ∀ v, G.leaf r v = 0) :
    Spec (freewalk cfg 3 (4096 * r)) s (fun _ s' => ∃ G', MemOk cfg owns s' G' ∧
      ¬ G'.live r ∧ Frame r ∅ ∅ s s' G G') Never := by
  refine (freewalk_spec 2 h (h.tree r hr).root hL).imp ?_
  rintro _ _ ⟨s1, G1, h1, hsh, hz, rfl⟩
  have hr1 := (hsh.live r).mpr hr
  exact ⟨_, h1.drop_root hr1 (by rw [hsh.leaf]; exact hL) hz, fun hc => hc.1 rfl,
    hsh.frame.trans (Frame.drop_root (h1.tree r hr1).root)⟩

/-! ## Growing and shrinking -/

/-- The outcome of code that changes the mappings of the page table `r` to `L`, and nothing that
its virtual pages `D` have nothing to do with. -/
def Mapped (cfg : Config) (owns : ℕ → ℕ → Prop) (r : ℕ) (D : Set ℕ) (s : Phys) (G : Ghost H)
    (L : ℕ → ℕ) (s' : Phys) : Prop :=
  ∃ G', MemOk cfg owns s' G' ∧ (∀ r', G'.live r' ↔ G.live r') ∧ Frame r D ∅ s s' G G' ∧
    G'.leaf r = L

theorem Mapped.refl (h : MemOk cfg owns s G) : Mapped cfg owns r D s G (G.leaf r) s :=
  ⟨G, h, fun _ => Iff.rfl, Frame.refl _ _ _ _ _, rfl⟩

variable {L : ℕ → ℕ}

theorem Mapped.mono (h : Mapped cfg owns r D s G L s') (hD : D ⊆ D') :
    Mapped cfg owns r D' s G L s' := by
  obtain ⟨G', h', hlive, hframe, hL⟩ := h
  exact ⟨G', h', hlive, hframe.mono hD subset_rfl, hL⟩

theorem Mapped.trans {s2 : Phys} (hlive : ∀ r', G'.live r' ↔ G.live r')
    (hframe : Frame r D ∅ s s' G G') (h : Mapped cfg owns r D s' G' L s2) :
    Mapped cfg owns r D s G L s2 := by
  obtain ⟨G2, h2, hlive2, hframe2, hL⟩ := h
  exact ⟨G2, h2, fun r' => (hlive2 r').trans (hlive r'), hframe.trans hframe2, hL⟩

/-- The mappings without those of the pages `[a, b)`. -/
def clear (L : ℕ → ℕ) (a b : ℕ) : ℕ → ℕ := fun u => if a ≤ u ∧ u < b then 0 else L u

variable {a b : ℕ}

theorem clear_of_le (L : ℕ → ℕ) (h : b ≤ a) : clear L a b = L := by
  funext u
  rw [clear, if_neg (by omega)]

theorem uvmunmap_spec {npages : ℕ} (h : MemOk cfg owns s G) (hu : ∀ v, owns r v ↔ v < top)
    (hp : UserPt G r N) (hv : v + npages ≤ N) :
    Spec (uvmunmap cfg (4096 * r) (4096 * v) npages true) s
      (fun _ => Mapped cfg owns r (Set.Ici v) s G (clear (G.leaf r) v (v + npages))) Never := by
  have hN := hp.lt h hu
  unfold uvmunmap
  rw [if_neg (by unfold PGSIZE; omega)]
  refine (unmapLoop_spec (D := Set.Ici v) h hp.live (by unfold top at hN; omega)
    fun u h1 h2 => ?_).imp ?_
  · obtain ⟨h3, h4⟩ := hp.ne_zero (v := u) (by omega)
    refine ⟨h3, h4, ?_, h1⟩
    rw [hu]
    simp only [iff_true]
    omega
  · rintro _ s' ⟨G', h', hlive, hframe, hleaf⟩
    exact ⟨G', h', hlive, hframe, funext hleaf⟩

theorem uvmdealloc_spec {oldsz newsz : ℕ} (h : MemOk cfg owns s G)
    (hu : ∀ v, owns r v ↔ v < top) (hp : UserPt G r (pages oldsz)) :
    Spec (uvmdealloc cfg (4096 * r) oldsz newsz) s (fun res s' => res = min oldsz newsz ∧
      Mapped cfg owns r (Set.Ici (pages (min oldsz newsz))) s G
        (clear (G.leaf r) (pages (min oldsz newsz)) (pages oldsz)) s') Never := by
  have hN := hp.lt h hu
  have same : ∀ a, pages oldsz ≤ a →
      Mapped cfg owns r (Set.Ici a) s G (clear (G.leaf r) a (pages oldsz)) s := by
    intro a ha
    rw [clear_of_le _ ha]
    exact Mapped.refl h
  unfold uvmdealloc
  by_cases h1 : oldsz ≤ newsz
  · rw [if_pos h1, spec_pure, min_eq_left h1]
    exact ⟨rfl, same _ le_rfl⟩
  · have hold : oldsz < 2 ^ 63 := by
      unfold pages top at hN
      omega
    rw [if_neg h1, min_eq_right (by omega), pgroundup_eq hold, pgroundup_eq (by omega)]
    have hmono : pages newsz ≤ pages oldsz := by
      unfold pages
      omega
    by_cases h2 : 4096 * pages newsz < 4096 * pages oldsz
    · rw [if_pos h2, spec_bind,
        show (4096 * pages oldsz - 4096 * pages newsz) / PGSIZE = pages oldsz - pages newsz by
          unfold PGSIZE; omega]
      refine (uvmunmap_spec h hu hp (by omega)).imp ?_
      intro _ s' h'
      rw [spec_pure]
      rw [show pages newsz + (pages oldsz - pages newsz) = pages oldsz by omega] at h'
      exact ⟨rfl, h'⟩
    · rw [if_neg h2, spec_pure]
      exact ⟨rfl, same _ (by omega)⟩

/-- A new page is filled and mapped; if there is no memory for the page table, it is freed. -/
theorem mapNew_spec (perm : ℕ) (m' : Bytes) (x : H) (hr : G.live r)
    (hown : owns r v) (hv : v < 2 ^ 26) (h0 : G.leaf r v = 0) (hp : perm < 1024) (hD : v ∈ D)
    (hfree : G.own k = .free) (hk : MemOk cfg owns s1 (G.give k (.held x)))
    (hm : ∀ n, n ≠ k → SamePage s.mem m' n) (hm1 : ∀ n, n ≠ k → SamePage s1.mem m' n) :
    Spec (mapOne cfg (4096 * r) perm (4096 * v) (4096 * k)) { s1 with mem := m' }
      (fun res s' =>
        if res then
          SamePage m' s'.mem k ∧ Mapped cfg owns r D s G
            (update (G.leaf r) v (1024 * k + (perm ||| PTE_V))) s'
        else kfree cfg (4096 * k) s' = .ok ((), s'.freed k) ∧
          Mapped cfg owns r D s G (G.leaf r) (s'.freed k)) Never := by
  have h2 := hk.data_held (give_self G k _) hm1 s1.calls
  have hbase : Frame r D {k} s { s1 with mem := m' } G (G.give k (.held x)) :=
    Frame.of_give rfl (fun hn => absurd rfl hn) (fun n e _ => hm n e) (fun _ _ => rfl)
      fun _ _ => Iff.rfl
  have hnot : ¬ (G.own k).Apart r D := by
    rw [hfree]
    exact id
  refine (mapOne_owned h2 hr hv h0 hown (give_self G k _) hp).imp ?_
  rintro res s' ⟨G', h', hlive, -, hres⟩
  cases res with
  | true =>
    obtain ⟨hframe, hsame, hleaf, hL⟩ := hres
    refine ⟨hsame, G', h', hlive, ?_, hL⟩
    refine (hbase.trans (hframe.mono (Set.empty_subset D) subset_rfl)).close fun n e _ => ?_
    obtain rfl : n = k := e
    refine ⟨hnot, ?_⟩
    rw [hleaf]
    exact fun hc => hc rfl hD
  | false =>
    have hgrow : Grows r _ s' _ G' := hres
    have hheld : G'.own k = .held x :=
      (hgrow.frame.held (Set.notMem_empty k) x).mpr (give_self G k _)
    refine ⟨kfree_eq h' (by rw [hheld]; nofun), _, h'.free_held hheld, hlive, ?_,
      congrFun hgrow.leaf r⟩
    have hfreed : Frame r D {k} s' (s'.freed k) G' (G'.give k .free) :=
      Frame.of_give rfl (fun hn => absurd rfl hn) (fun n e _ => freed_same s' e) (fun _ _ => rfl)
        fun _ _ => Iff.rfl
    have hgrown := hgrow.frame.mono (Set.empty_subset D) (Set.empty_subset {k})
    refine ((hbase.trans hgrown).trans hfreed).close fun n e _ => ?_
    obtain rfl : n = k := e
    refine ⟨hnot, ?_⟩
    rw [give_self]
    exact id

/-- The mappings `L` with `[a, b)` mapped by words that `W` allows. -/
def Grown (L : ℕ → ℕ) (a b : ℕ) (W : ℕ → ℕ → Prop) (L' : ℕ → ℕ) : Prop :=
  (∀ u, a ≤ u → u < b → W u (L' u)) ∧ ∀ u, ¬ (a ≤ u ∧ u < b) → L' u = L u

theorem Grown.refl (L : ℕ → ℕ) (h : b ≤ a) (W : ℕ → ℕ → Prop) : Grown L a b W L :=
  ⟨fun _ _ _ => by omega, fun _ _ => rfl⟩

variable {W : ℕ → ℕ → Prop}

theorem Grown.cons {L L' : ℕ → ℕ} (hab : a < b) (hw : W a w)
    (h : Grown (update L a w) (a + 1) b W L') : Grown L a b W L' := by
  have ha : L' a = w := by
    rw [h.2 a (by omega), update_self]
  refine ⟨fun u h1 h2 => ?_, fun u hu => ?_⟩
  · by_cases e : u = a
    · subst e
      rwa [ha]
    · exact h.1 u (by omega) h2
  · rw [h.2 u (by omega), update_of_ne (by omega)]

theorem clear_update {a : ℕ} (h0 : L v = 0) (ha : a ≤ v) :
    clear (update L v w) a (v + 1) = clear L a v := by
  funext u
  unfold clear
  by_cases e : u = v
  · subst e
    rw [if_pos (by omega), if_neg (by omega), h0]
  · rw [update_of_ne e]
    exact if_congr (by omega) rfl rfl

theorem UserPt.of_leaf (hp : UserPt G r N) (hlive : ∀ r', G'.live r' ↔ G.live r')
    (hL : G'.leaf r = G.leaf r) : UserPt G' r N := by
  refine ⟨(hlive r).mpr hp.live, ?_, ?_⟩
  · rw [hL]
    exact hp.mapped
  · rw [hL]
    exact hp.empty

theorem UserPt.grown {b : ℕ} (hp : UserPt G r N)
    (hlive : G'.live r) (hL : G'.leaf r = L) (hg : Grown (G.leaf r) N b W L) (hb : N ≤ b)
    (hW : ∀ u w, u < b → W u w → w % 2 = 1 ∧ w % 1024 ≠ 1) : UserPt G' r b := by
  refine ⟨hlive, fun u hu => ?_, fun u hu htop => ?_⟩
  · rw [hL]
    by_cases e : N ≤ u
    · exact hW u _ hu (hg.1 u e hu)
    · rw [hg.2 u (by omega)]
      exact hp.mapped u (by omega)
  · rw [hL, hg.2 u (by omega)]
    exact hp.empty u (by omega) htop

/-- All bytes of the page are zero. -/
def ZeroPage (m : Bytes) (n : ℕ) : Prop := ∀ a, a / 4096 = n → m a = 0

theorem ZeroPage.congr {m : Bytes} (h : ZeroPage m n) (hs : SamePage m m' n) : ZeroPage m' n :=
  fun a ha => (hs a ha).trans (h a ha)

theorem zeroPage_fill (m : Bytes) (n : ℕ) : ZeroPage (m.fill (4096 * n) 4096 0) n := by
  intro a ha
  unfold Bytes.fill
  rw [if_pos (by omega)]

/-- A new user page. -/
def Fresh (m : Bytes) : ℕ → ℕ → Prop := fun _ w => w % 1024 = 31 ∧ ZeroPage m (w / 1024)

/-- A user page keeps its bytes as long as the page table is not changed there. -/
theorem Frame.user_bytes (hf : Frame r D ∅ s s' G G') (hk : G.own k = .leaf r v) (hv : v ∉ D) :
    SamePage s.mem s'.mem k :=
  hf.bytes k (Set.notMem_empty k) (by rw [hk]; exact fun _ => hv)

theorem allocLoop_spec {v0 : ℕ} (x : H) (h : MemOk cfg owns s G) (hu : ∀ v, owns r v ↔ v < top)
    (hp : UserPt G r v) (hv0 : v0 ≤ v) :
    Spec (allocLoop cfg (4096 * r) (4096 * v0) n (4096 * v)) s (fun res s' =>
      if res then ∃ L, Mapped cfg owns r (Set.Ici v) s G L s' ∧
        Grown (G.leaf r) v (v + n) (Fresh s'.mem) L
      else Mapped cfg owns r (Set.Ici v0) s G (clear (G.leaf r) v0 v) s') Never := by
  induction n generalizing s G v with
  | zero =>
    rw [allocLoop, spec_pure]
    exact ⟨_, Mapped.refl h, Grown.refl _ (by omega) _⟩
  | succ n ih =>
    have hv := hp.lt h hu
    have h0 : G.leaf r v = 0 := hp.empty v le_rfl hv
    -- what is done when memory has run out
    have hundo : ∀ s1, Mapped cfg owns r (Set.Ici v) s G (G.leaf r) s1 →
        Spec (do let _ ← uvmdealloc cfg (4096 * r) (4096 * v) (4096 * v0); pure false) s1
          (fun res s' =>
            if res then ∃ L, Mapped cfg owns r (Set.Ici v) s G L s' ∧
              Grown (G.leaf r) v (v + (n + 1)) (Fresh s'.mem) L
            else Mapped cfg owns r (Set.Ici v0) s G (clear (G.leaf r) v0 v) s') Never := by
      rintro s1 ⟨G1, h1, hlive, hframe, hleaf⟩
      have hp1 : UserPt G1 r (pages (4096 * v)) := by
        rw [pages_mul]
        exact hp.of_leaf hlive hleaf
      rw [spec_bind]
      refine (uvmdealloc_spec h1 hu hp1).imp ?_
      rintro _ s2 ⟨-, h2⟩
      rw [min_eq_right (by omega), pages_mul, pages_mul, hleaf] at h2
      rw [spec_pure]
      exact h2.trans hlive (hframe.mono (Set.Ici_subset_Ici.mpr hv0) subset_rfl)
    rw [allocLoop, spec_bind]
    refine (kalloc_spec h).imp ?_
    rintro (_ | pa) s1 h1
    · exact hundo s1 ⟨G, h1.1, fun _ => Iff.rfl, Frame.of_mem h1.2, rfl⟩
    · obtain ⟨k, rfl, hfree, hk, hsame⟩ := h1
      rw [spec_bind, spec_memset, spec_bind, mappages_one]
      have hmap := mapNew_spec (D := Set.Ici v) (PTE_W ||| PTE_X ||| PTE_R ||| PTE_U)
        (s1.mem.fill (4096 * k) PGSIZE 0) x hp.live ((hu v).mpr hv)
        (by unfold top at hv; omega) h0 (by decide) (Set.mem_Ici.mpr le_rfl) hfree (hk x)
        (fun n e => (hsame n e).trans (samePage_fill e)) fun n e => samePage_fill e
      refine hmap.imp ?_
      intro res s2 hres
      cases res with
      | true =>
        obtain ⟨hzero, G2, h2, hlive2, hframe2, hL2⟩ := hres
        rw [if_pos rfl]
        have hw : (1024 * k + (PTE_W ||| PTE_X ||| PTE_R ||| PTE_U ||| PTE_V)) % 1024 = 31 ∧
            (1024 * k + (PTE_W ||| PTE_X ||| PTE_R ||| PTE_U ||| PTE_V)) / 1024 = k := by
          have : PTE_W ||| PTE_X ||| PTE_R ||| PTE_U ||| PTE_V = 31 := by decide
          omega
        have hp2 : UserPt G2 r (v + 1) := by
          refine hp.grown ((hlive2 r).mpr hp.live) hL2 (W := fun _ w => w % 1024 = 31)
            (Grown.cons (by omega) hw.1 (Grown.refl _ le_rfl _)) (by omega) fun u w _ hw => ?_
          have hw' : w % 1024 = 31 := hw
          omega
        have hk2 : G2.own k = .leaf r v := by
          refine (h2.leaf k r v).mpr ⟨hp2.live, (hu v).mpr hv, ?_⟩
          rw [hL2, update_self]
          omega
        refine (ih h2 hp2 (by omega)).imp ?_
        intro res s3 hres3
        cases res with
        | true =>
          obtain ⟨L, hL, hg⟩ := hres3
          rw [hL2, show v + 1 + n = v + (n + 1) by omega] at hg
          have hL' := hL.mono (Set.Ici_subset_Ici.mpr (Nat.le_succ v))
          refine ⟨L, hL'.trans hlive2 hframe2, Grown.cons (by omega) ⟨hw.1, ?_⟩ hg⟩
          -- the rest of the loop does not touch the new page
          obtain ⟨G3, -, -, hframe3, -⟩ := hL
          rw [hw.2]
          refine ((zeroPage_fill s1.mem k).congr hzero).congr (hframe3.user_bytes hk2 ?_)
          simp
        | false =>
          have hif : Mapped cfg owns r _ s2 G2 _ s3 := hres3
          rw [hL2, clear_update h0 hv0] at hif
          exact hif.trans hlive2 (hframe2.mono (Set.Ici_subset_Ici.mpr hv0) subset_rfl)
      | false =>
        obtain ⟨hfr, hmapped⟩ := hres
        rw [if_neg (by simp), spec_bind, spec_of_eq_ok hfr]
        exact hundo _ hmapped

/-- `uvmalloc` grows the memory, or leaves it as it was and returns 0. -/
theorem uvmalloc_spec {oldsz newsz : ℕ} (x : H) (h : MemOk cfg owns s G)
    (hu : ∀ v, owns r v ↔ v < top) (hp : UserPt G r (pages oldsz)) :
    Spec (uvmalloc cfg (4096 * r) oldsz newsz) s (fun res s' => ∃ L,
      Mapped cfg owns r (Set.Ici (pages oldsz)) s G L s' ∧
      (res = max oldsz newsz ∧ Grown (G.leaf r) (pages oldsz) (pages res) (Fresh s'.mem) L ∨
        res = 0 ∧ L = G.leaf r)) Never := by
  have hN := hp.lt h hu
  unfold uvmalloc
  by_cases hlt : newsz < oldsz
  · rw [if_pos hlt, spec_pure]
    exact ⟨_, Mapped.refl h, .inl ⟨by omega, Grown.refl _ le_rfl _⟩⟩
  · have hold : oldsz < 2 ^ 63 := by
      unfold pages top at hN
      omega
    have hround : (newsz - 4096 * pages oldsz + PGSIZE - 1) / PGSIZE =
        pages newsz - pages oldsz := by
      unfold pages PGSIZE
      omega
    have hle : pages oldsz ≤ pages newsz := by
      unfold pages
      omega
    rw [if_neg hlt]
    simp only [pgroundup_eq hold]
    rw [spec_bind, hround]
    refine (allocLoop_spec x h hu hp le_rfl).imp ?_
    intro res s' hres
    cases res with
    | true =>
      obtain ⟨L, hL, hg⟩ := hres
      rw [show pages oldsz + (pages newsz - pages oldsz) = pages newsz by omega] at hg
      rw [if_pos rfl, spec_pure]
      exact ⟨L, hL, .inl ⟨by omega, hg⟩⟩
    | false =>
      have hc : Mapped cfg owns r _ s G _ s' := hres
      rw [clear_of_le _ le_rfl] at hc
      rw [if_neg (by simp), spec_pure]
      exact ⟨_, hc, .inr ⟨rfl, rfl⟩⟩

end TatakOS.Mem
