import TatakOS.Mem.View

/-!
# Copying and freeing user memory

`uvmcopy`, `uvmclear` and `uvmfree`. A copy has the same bytes and the same permissions in pages
that were not mapped before; when memory runs out, nothing of it remains.
-/

namespace TatakOS.Mem

open Function

variable {H : Type} {cfg : Config} {owns : ℕ → ℕ → Prop} {s s' s1 : Phys} {G G' : Ghost H}
  {D : Set ℕ} {n k r l p i v w N : ℕ} {x : H}

theorem samePage_move {m : Bytes} {src : ℕ} (e : n ≠ k) :
    SamePage m (m.move (4096 * k) src 4096) n := by
  intro a ha
  unfold Bytes.move
  rw [if_neg (by omega)]

/-- Page `k` of `m'` has the bytes that page `n` of `m` has. -/
def SameBytes (m : Bytes) (n : ℕ) (m' : Bytes) (k : ℕ) : Prop :=
  ∀ i < 4096, m' (4096 * k + i) = m (4096 * n + i)

theorem SameBytes.congr {m m' m1 m1' : Bytes} (h : SameBytes m n m' k) (hm : SamePage m1 m n)
    (hm' : SamePage m' m1' k) : SameBytes m1 n m1' k := by
  intro i hi
  rw [hm' _ (by omega), h i hi, hm _ (by omega)]

theorem sameBytes_move (m : Bytes) (n k : ℕ) :
    SameBytes m n (m.move (4096 * k) (4096 * n) 4096) k := by
  intro i hi
  unfold Bytes.move
  rw [if_pos (by omega)]
  congr 1
  omega

theorem or_pte_v (h : w % 2 = 1) : w ||| PTE_V = w := by
  have hhigh : (w ||| PTE_V) / 2 ^ 1 = w / 2 := by
    rw [Nat.or_div_two_pow, show PTE_V / 2 ^ 1 = 0 by decide, Nat.or_zero]
  have hlow : (w ||| PTE_V) % 2 ^ 1 = 1 := by
    rw [Nat.or_mod_two_pow, show w % 2 ^ 1 = 1 by omega]
    decide
  omega

/-- The word `w` maps a copy of virtual page `u` of the page table `r0`, in a page of its own. -/
structure CopyOf (G : Ghost H) (r0 : ℕ) (m m' : Bytes) (u w : ℕ) : Prop where
  flags : w % 1024 = G.leaf r0 u % 1024
  bytes : SameBytes m (G.leaf r0 u / 1024) m' (w / 1024)
  new : ∀ r v, G.own (w / 1024) ≠ .leaf r v

/-- What is not mapped after a change of the pages from `v` on was not mapped before. -/
theorem Frame.not_leaf (hf : Frame r (Set.Ici v) ∅ s s' G G') (h : MemOk cfg owns s G)
    (hu : ∀ v, owns r v ↔ v < top) (hp : UserPt G r v) (hk : ∀ r v, G'.own k ≠ .leaf r v) :
    ∀ r v, G.own k ≠ .leaf r v := by
  intro r' v' hleaf
  by_cases ha : (Own.leaf r' v' : Own H).Apart r (Set.Ici v)
  · exact hk r' v' ((hf.own k (Set.notMem_empty k) _ ha).mpr hleaf)
  · obtain ⟨rfl, hv'⟩ : r' = r ∧ v ≤ v' := by
      simpa [Own.Apart] using ha
    obtain ⟨-, hown, h0, -⟩ := (h.leaf k r' v').mp hleaf
    exact h0 (hp.empty v' hv' ((hu v').mp hown))

theorem copyLoop_spec {r0 N0 : ℕ} (x : H) (h : MemOk cfg owns s G) (hne : r0 ≠ r)
    (hu : ∀ v, owns r v ↔ v < top) (hu0 : ∀ v < N0, owns r0 v) (hp0 : UserPt G r0 N0)
    (hp : UserPt G r v) (hv : v + n ≤ N0) :
    Spec (copyLoop cfg (4096 * r0) (4096 * r) n (4096 * v)) s (fun res s' =>
      if res then ∃ L, Mapped cfg owns r (Set.Ici v) s G L s' ∧
        Grown (G.leaf r) v (v + n) (CopyOf G r0 s.mem s'.mem) L
      else Mapped cfg owns r (Set.Ici 0) s G (clear (G.leaf r) 0 v) s') Never := by
  induction n generalizing s G v with
  | zero =>
    rw [copyLoop, spec_pure]
    exact ⟨_, Mapped.refl h, Grown.refl _ (by omega) _⟩
  | succ n ih =>
    have hvt := hp.lt h hu
    have hv26 : v < 2 ^ 26 := by
      unfold top at hvt
      omega
    have h0 : G.leaf r v = 0 := hp.empty v le_rfl hvt
    obtain ⟨hL0, -⟩ := hp0.ne_zero (v := v) (by omega)
    have hflags := hp0.mapped v (by omega)
    have hzero : Set.Ici v ⊆ Set.Ici 0 := Set.Ici_subset_Ici.mpr (Nat.zero_le v)
    -- what is done when memory has run out
    have hundo : ∀ s1, Mapped cfg owns r (Set.Ici v) s G (G.leaf r) s1 →
        Spec (do uvmunmap cfg (4096 * r) 0 (4096 * v / PGSIZE) true; pure false) s1
          (fun res s' =>
            if res then ∃ L, Mapped cfg owns r (Set.Ici v) s G L s' ∧
              Grown (G.leaf r) v (v + (n + 1)) (CopyOf G r0 s.mem s'.mem) L
            else Mapped cfg owns r (Set.Ici 0) s G (clear (G.leaf r) 0 v) s') Never := by
      rintro s1 ⟨G1, h1, hlive, hframe, hleaf⟩
      rw [spec_bind, show 4096 * v / PGSIZE = v by unfold PGSIZE; omega]
      refine (uvmunmap_spec (v := 0) h1 hu (hp.of_leaf hlive hleaf) (by omega)).imp ?_
      intro _ s2 h2
      rw [hleaf, Nat.zero_add] at h2
      rw [spec_pure]
      exact h2.trans hlive (hframe.mono hzero subset_rfl)
    rw [copyLoop, spec_bind]
    refine (walk_mapped (h.tree r0 hp0.live) hv26 hL0).imp ?_
    rintro _ s' ⟨rfl, q, rfl, hq⟩
    simp only [spec_bind, spec_load]
    rw [h.get_entry hq, if_neg (by rw [and_pte_v]; omega), spec_bind]
    refine (kalloc_spec h).imp ?_
    rintro (_ | pa) s1 h1
    · exact hundo s1 ⟨G, h1.1, fun _ => Iff.rfl, Frame.of_mem h1.2, rfl⟩
    · obtain ⟨k, rfl, hfree, hk, hsame⟩ := h1
      rw [spec_bind, spec_memmove, spec_bind, mappages_one, pte_flags_eq, pte2pa_eq]
      have hmap := mapNew_spec (D := Set.Ici v) (G.leaf r0 v % 1024)
        (s1.mem.move (4096 * k) (4096 * (G.leaf r0 v / 1024)) PGSIZE) x hp.live ((hu v).mpr hvt)
        hv26 h0 (Nat.mod_lt _ (by norm_num)) (Set.mem_Ici.mpr le_rfl) hfree (hk x)
        (fun n e => (hsame n e).trans (samePage_move e)) fun n e => samePage_move e
      refine hmap.imp ?_
      intro res s2 hres
      have hw : (1024 * k + (G.leaf r0 v % 1024 ||| PTE_V)) % 1024 = G.leaf r0 v % 1024 ∧
          (1024 * k + (G.leaf r0 v % 1024 ||| PTE_V)) / 1024 = k := by
        rw [or_pte_v (by omega)]
        omega
      cases res with
      | true =>
        obtain ⟨hcopy, G2, h2, hlive2, hframe2, hL2⟩ := hres
        have hold2 : G2.leaf r0 = G.leaf r0 := hframe2.leaf r0 hne
        rw [if_pos rfl]
        have hp2 : UserPt G2 r (v + 1) := by
          refine hp.grown ((hlive2 r).mpr hp.live) hL2
            (W := fun u w => w % 1024 = G.leaf r0 u % 1024)
            (Grown.cons (by omega) hw.1 (Grown.refl _ le_rfl _)) (by omega) fun u w hu hw => ?_
          have hw' : w % 1024 = G.leaf r0 u % 1024 := hw
          have := hp0.mapped u (by omega)
          omega
        have hk2 : G2.own k = .leaf r v := by
          refine (h2.leaf k r v).mpr ⟨hp2.live, (hu v).mpr hvt, ?_⟩
          rw [hL2, update_self]
          omega
        -- the pages of the other page table stay as they are
        have hparent : ∀ u < N0, SamePage s'.mem s2.mem (G.leaf r0 u / 1024) := by
          intro u hu'
          have hown : G.own (G.leaf r0 u / 1024) = .leaf r0 u :=
            (h.leaf _ r0 u).mpr ⟨hp0.live, hu0 u hu', (hp0.ne_zero hu').1, rfl⟩
          apply hframe2.bytes _ (Set.notMem_empty _)
          rw [hown]
          exact fun e => absurd e hne
        refine (ih h2 (hp0.of_leaf hlive2 hold2) hp2 (by omega)).imp ?_
        intro res s3 hres3
        cases res with
        | true =>
          obtain ⟨L, hL, hg⟩ := hres3
          rw [hL2, show v + 1 + n = v + (n + 1) by omega] at hg
          have hL' := hL.mono (Set.Ici_subset_Ici.mpr (Nat.le_succ v))
          refine ⟨L, hL'.trans hlive2 hframe2, Grown.cons (by omega) ⟨hw.1, ?_, ?_⟩ ⟨?_, hg.2⟩⟩
          · obtain ⟨G3, -, -, hframe3, -⟩ := hL
            rw [hw.2]
            refine (sameBytes_move s1.mem (G.leaf r0 v / 1024) k).congr (hsame _ ?_)
              (hcopy.trans (hframe3.user_bytes hk2 (by simp)))
            intro e
            have hown : G.own (G.leaf r0 v / 1024) = .leaf r0 v :=
              (h.leaf _ r0 v).mpr ⟨hp0.live, hu0 v (by omega), hL0, rfl⟩
            rw [e, hfree] at hown
            cases hown
          · intro r' v'
            rw [hw.2, hfree]
            simp
          · intro u h1 h2'
            obtain ⟨hf, hb, hnew⟩ := hg.1 u h1 h2'
            rw [hold2] at hf hb
            exact ⟨hf, hb.congr (hparent u (by omega)) (SamePage.refl _ _),
              hframe2.not_leaf h hu hp hnew⟩
        | false =>
          have hif : Mapped cfg owns r _ s2 G2 _ s3 := hres3
          rw [hL2, clear_update h0 (Nat.zero_le _)] at hif
          exact hif.trans hlive2 (hframe2.mono hzero subset_rfl)
      | false =>
        obtain ⟨hfr, hmapped⟩ := hres
        rw [if_neg (by simp), spec_bind, spec_of_eq_ok hfr]
        exact hundo _ hmapped

theorem uvmcopy_spec {r0 sz : ℕ} (x : H) (h : MemOk cfg owns s G) (hne : r0 ≠ r)
    (hu : ∀ v, owns r v ↔ v < top) (hu0 : ∀ v < pages sz, owns r0 v)
    (hp0 : UserPt G r0 (pages sz)) (hp : UserPt G r 0) :
    Spec (uvmcopy cfg (4096 * r0) (4096 * r) sz) s (fun res s' => ∃ L,
      Mapped cfg owns r Set.univ s G L s' ∧
      if res then Grown (G.leaf r) 0 (pages sz) (CopyOf G r0 s.mem s'.mem) L
      else L = G.leaf r) Never := by
  have hn : (sz + PGSIZE - 1) / PGSIZE = pages sz := by
    unfold PGSIZE pages
    omega
  unfold uvmcopy
  rw [hn]
  refine (copyLoop_spec (v := 0) x h hne hu hu0 hp0 hp (by omega)).imp ?_
  intro res s' hres
  rw [Nat.zero_add] at hres
  cases res with
  | true =>
    obtain ⟨L, hL, hg⟩ := hres
    exact ⟨L, hL.mono (Set.subset_univ _), hg⟩
  | false =>
    have hc : Mapped cfg owns r _ s G _ s' := hres
    rw [clear_of_le _ le_rfl] at hc
    exact ⟨_, hc.mono (Set.subset_univ _), rfl⟩

/-- A child that has no user page left has given all pages for user memory back. -/
theorem Frame.free_or_node {N : ℕ} (hf : Frame r D ∅ s s' G G') (h' : MemOk cfg owns s' G')
    (hu : ∀ v, owns r v ↔ v < top) (hp : UserPt G' r N) (hD : ∀ v ∈ D, N ≤ v)
    (hk : G.own k = .free) : G'.own k = .free ∨ ∃ l q, G'.own k = .node r l q := by
  rcases hf.own_of_free hk with e | e | ⟨v, hv, e⟩
  · exact .inl e
  · exact .inr e
  · obtain ⟨-, ho, hne, -⟩ := (h'.leaf k r v).mp e
    exact absurd (hp.empty v (hD v hv) ((hu v).mp ho)) hne

/-- `uvmcopy` copies all pages of a process, or none. -/
theorem uvmcopy_exact [Inhabited H] {r0 sz : ℕ} (h : MemOk cfg owns s G) (hne : r0 ≠ r)
    (hu : ∀ v, owns r v ↔ v < top) (hu0 : ∀ v, owns r0 v ↔ v < top)
    (hp0 : UserPt G r0 (pages sz)) (hp : UserPt G r 0) :
    ∃ res s', uvmcopy cfg (4096 * r0) (4096 * r) sz s = .ok (res, s') ∧
      (∀ va < MAXVA, pte cfg s' (4096 * r0) va = pte cfg s (4096 * r0) va) ∧
      (∀ va < PGROUNDUP sz, byteAt cfg s' (4096 * r0) va = byteAt cfg s (4096 * r0) va) ∧
      if res then
        ∀ va < PGROUNDUP sz,
          PTE_FLAGS (pte cfg s' (4096 * r) va) = PTE_FLAGS (pte cfg s (4096 * r0) va) ∧
          byteAt cfg s' (4096 * r) va = byteAt cfg s (4096 * r0) va ∧
          ∀ r' va', G.live r' → owns r' (va' / 4096) → va' < MAXVA → pte cfg s (4096 * r') va' ≠ 0 →
            PTE2PA (pte cfg s' (4096 * r) va) ≠ PTE2PA (pte cfg s (4096 * r') va')
      else
        (∀ va < TRAPFRAME, pte cfg s' (4096 * r) va = 0) ∧
        ∃ G' : Ghost H, MemOk cfg owns s' G' ∧
          ∀ k, G.own k = .free → G'.own k = .free ∨ ∃ l q, G'.own k = .node r l q := by
  have hN := hp0.lt h hu0
  have hround : PGROUNDUP sz = 4096 * pages sz := by
    refine pgroundup_eq ?_
    unfold pages top at hN
    omega
  have hpage : ∀ {va}, va < PGROUNDUP sz → va < MAXVA ∧ va / 4096 < pages sz := by
    intro va hva
    have htf : va < TRAPFRAME := by
      rw [trapframe_eq]
      omega
    have := lt_maxva_of_lt_trapframe htf
    omega
  have hspec : Spec (uvmcopy cfg (4096 * r0) (4096 * r) sz) s _ Never :=
    uvmcopy_spec default h hne hu (fun v hv => (hu0 v).mpr (by omega)) hp0 hp
  obtain ⟨res, s', e, L, ⟨G', h', hlive, hframe, hL⟩, hres⟩ := hspec.exists_ok
  have hr' := (hlive r).mpr hp.live
  have hr0' := (hlive r0).mpr hp0.live
  refine ⟨res, s', e, fun va hva => ?_, fun va hva => ?_, ?_⟩
  · rw [h'.pte_eq hr0' hva, h.pte_eq hp0.live hva, hframe.leaf r0 hne]
  · obtain ⟨hmax, hv⟩ := hpage hva
    exact hframe.byteAt_eq h h' hp0.live hr0' hmax ((hu0 _).mpr (by omega)) (hp0.ne_zero hv).1
      fun e => absurd e hne
  · cases res with
    | true =>
      have hg : Grown _ _ _ _ L := hres
      intro va hva
      obtain ⟨hmax, hv⟩ := hpage hva
      obtain ⟨hflags, hbytes, hnew⟩ := hg.1 (va / 4096) (Nat.zero_le _) hv
      rw [← hL] at hflags hbytes hnew
      rw [h'.byteAt_eq hr' hmax, h.byteAt_eq hp0.live hmax, h'.pte_eq hr' hmax,
        h.pte_eq hp0.live hmax, pte_flags_eq, pte_flags_eq, pte2pa_eq]
      refine ⟨hflags, hbytes _ (by omega), fun r' va' hlive' hown hmax' hne' => ?_⟩
      rw [h.pte_eq hlive' hmax'] at hne' ⊢
      rw [pte2pa_eq]
      intro heq
      refine hnew r' (va' / 4096) ((h.leaf _ _ _).mpr ⟨hlive', hown, hne', ?_⟩)
      omega
    | false =>
      have hsame : L = G.leaf r := hres
      have hp' : UserPt G' r 0 := hp.of_leaf hlive (hL.trans hsame)
      refine ⟨fun va hva => ?_, G', h', fun k hk =>
        hframe.free_or_node h' hu hp' (fun v _ => Nat.zero_le v) hk⟩
      obtain ⟨hmax, hv⟩ := lt_maxva_of_lt_trapframe hva
      rw [h'.pte_eq hr' hmax]
      exact hp'.empty _ (Nat.zero_le _) hv

/-- One page is copied, with its byte 42. -/
theorem uvmcopy_exact_page : ∃ s',
    uvmcopy smallConfig (4096 * firstPage) (4096 * (firstPage + 4)) 1 smallPhys = .ok (true, s') ∧
      byteAt smallConfig s' (4096 * firstPage) 0 = 42 ∧
      byteAt smallConfig s' (4096 * (firstPage + 4)) 0 = 42 ∧
      PTE_FLAGS (pte smallConfig s' (4096 * (firstPage + 4)) 0) = 31 ∧
      PTE2PA (pte smallConfig s' (4096 * (firstPage + 4)) 0) ≠
        PTE2PA (pte smallConfig smallPhys (4096 * firstPage) 0) := by
  obtain ⟨res, s', e, -, hbytes, hres⟩ := uvmcopy_exact small_memOk (by decide) (fun _ => Iff.rfl)
    (fun _ => Iff.rfl) small_userPt small_userPt_empty
  have heval : (uvmcopy smallConfig (4096 * firstPage) (4096 * (firstPage + 4)) 1
      smallPhys).toOption.map Prod.fst = some true := by decide +kernel
  have hold : byteAt smallConfig smallPhys (4096 * firstPage) 0 = 42 ∧
      PTE_FLAGS (pte smallConfig smallPhys (4096 * firstPage) 0) = 31 ∧
      pte smallConfig smallPhys (4096 * firstPage) 0 ≠ 0 := by decide +kernel
  rw [e] at heval
  obtain rfl : res = true := Option.some.inj heval
  obtain ⟨hflags, hbyte, hpa⟩ := hres 0 (by decide)
  exact ⟨s', e, (hbytes 0 (by decide)).trans hold.1, hbyte.trans hold.1, hflags.trans hold.2.1,
    hpa firstPage 0 small_userPt.live (by decide) (by decide) hold.2.2⟩

theorem clear_user (hw : w % 1024 = 31) (hs : w < 2 ^ 64) :
    w &&& (2 ^ 64 - 1 - PTE_U) = w - 16 := by
  have hhigh : (w &&& (2 ^ 64 - 1 - PTE_U)) / 2 ^ 5 = w / 32 := by
    rw [Nat.and_div_two_pow, show (2 ^ 64 - 1 - PTE_U) / 2 ^ 5 = 2 ^ 59 - 1 by decide,
      Nat.and_two_pow_sub_one_eq_mod]
    omega
  have hlow : (w &&& (2 ^ 64 - 1 - PTE_U)) % 2 ^ 5 = 15 := by
    rw [Nat.and_mod_two_pow, show w % 2 ^ 5 = 31 by omega]
    decide
  omega

theorem uvmclear_spec (h : MemOk cfg owns s G) (hp : UserPt G r N) (hv : v < N)
    (hN : N ≤ 2 ^ 26) (hflags : G.leaf r v % 1024 = 31) :
    Spec (uvmclear cfg (4096 * r) (4096 * v)) s
      (fun _ => Mapped cfg owns r ∅ s G (update (G.leaf r) v (G.leaf r v - 16))) Never := by
  obtain ⟨hL, -⟩ := hp.ne_zero hv
  have hv' : 512 * (v / 512) + v % 512 = v := by omega
  unfold uvmclear
  rw [spec_bind]
  refine (walk_mapped (h.tree r hp.live) (by omega) hL).imp ?_
  rintro _ s' ⟨rfl, k, rfl, hk⟩
  have hs : G.leaf r v < 2 ^ 64 := by
    rw [← h.get_entry hk]
    exact Bytes.get_lt
  simp only [spec_bind, spec_load, spec_store]
  rw [h.get_entry hk, clear_user hflags hs]
  have hset := h.set_entry hk (show v % 512 < 512 by omega)
    (show G.leaf r v - 16 = 0 ∨ (G.leaf r v - 16) % 2 = 1 by omega) (by omega) fun _ => by
      rw [hv']
      omega
  rw [hv'] at hset
  exact ⟨_, hset, fun _ => Iff.rfl, Frame.set_entry hk (by omega) v, update_self ..⟩

theorem uvmfree_spec {sz : ℕ} (h : MemOk cfg owns s G) (hu : ∀ v, owns r v ↔ v < top)
    (hp : UserPt G r (pages sz)) (htop : ∀ v, top ≤ v → G.leaf r v = 0) :
    Spec (uvmfree cfg (4096 * r) sz) s (fun _ s' => ∃ G', MemOk cfg owns s' G' ∧
      ¬ G'.live r ∧ Frame r Set.univ ∅ s s' G G') Never := by
  have hN := hp.lt h hu
  have hsz : sz < 2 ^ 63 := by
    unfold pages top at hN
    omega
  have hunmap : Spec (if 0 < sz then uvmunmap cfg (4096 * r) 0 (PGROUNDUP sz / PGSIZE) true
      else pure () : Vm Unit) s
      (fun _ => Mapped cfg owns r (Set.Ici 0) s G (clear (G.leaf r) 0 (pages sz))) Never := by
    by_cases h0 : 0 < sz
    · rw [if_pos h0, pgroundup_eq hsz, show 4096 * pages sz / PGSIZE = pages sz by
        unfold PGSIZE; omega]
      have := uvmunmap_spec (v := 0) h hu hp (show 0 + pages sz ≤ pages sz by omega)
      rwa [Nat.zero_add] at this
    · have hpages : pages sz ≤ 0 := by
        unfold pages
        omega
      rw [if_neg h0, spec_pure, clear_of_le _ hpages]
      exact Mapped.refl h
  unfold uvmfree
  rw [spec_bind]
  refine hunmap.imp ?_
  rintro _ s1 ⟨G1, h1, hlive, hframe, hL⟩
  refine (freewalk_root h1 ((hlive r).mpr hp.live) fun v => ?_).imp ?_
  · rw [hL, clear]
    by_cases e : v < pages sz
    · rw [if_pos (by omega)]
    · rw [if_neg (by omega)]
      by_cases et : v < top
      · exact hp.empty v (by omega) et
      · exact htop v (by omega)
  · rintro _ s2 ⟨G2, h2, hdead, hframe2⟩
    exact ⟨G2, h2, hdead, (hframe.mono (Set.subset_univ _) subset_rfl).trans
      (hframe2.mono (Set.empty_subset _) subset_rfl)⟩

end TatakOS.Mem
