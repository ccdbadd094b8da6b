import TatakOS.Mem.Copy
import TatakOS.Mem.Kernel

/-!
# The page table of a process

`proc_pagetable` makes a page table with the trapframe and the trampoline, `proc_freepagetable` frees
it. Neither changes anything that belongs to somebody else, so that a page table that was made and
freed again leaves no trace.
-/

namespace TatakOS.Mem

open Function

variable {H : Type} {cfg : Config} {owns : ℕ → ℕ → Prop} {s s' s1 : Phys} {G G' G1 : Ghost H}
  {D : Set ℕ} {n r t u v w N : ℕ} {x : H}

/-! ## Nothing has happened -/

/-- Memory is as it was, but for the contents of free pages. -/
structure Same (s s' : Phys) (G G' : Ghost H) : Prop where
  own : G'.own = G.own
  live : ∀ r, G'.live r ↔ G.live r
  leaf : ∀ r, G.live r → G'.leaf r = G.leaf r
  bytes : ∀ n, G.own n ≠ .free → SamePage s.mem s'.mem n

theorem Same.refl (s : Phys) (G : Ghost H) : Same s s G G :=
  ⟨rfl, fun _ => .rfl, fun _ _ => rfl, fun n _ => .refl _ n⟩

/-- A page table that was not there before is gone again. -/
theorem Same.of_frame (hf : Frame r Set.univ ∅ s s' G G') (h : MemOk cfg owns s G)
    (h' : MemOk cfg owns s' G') (hr : ¬ G.live r) (hr' : ¬ G'.live r) : Same s s' G G' := by
  have hcases : ∀ {G : Ghost H} {s : Phys}, MemOk cfg owns s G → ¬ G.live r → ∀ n,
      G.own n = .free ∨ (G.own n).Apart r Set.univ := by
    intro G s h hr n
    cases hn : G.own n with
    | none => exact .inr trivial
    | free => exact .inl rfl
    | held x => exact .inr trivial
    | node r' l p =>
      refine .inr ?_
      rintro rfl
      exact hr (h.node n r' l p hn)
    | leaf r' v =>
      refine .inr ?_
      rintro rfl
      exact absurd ((h.leaf n r' v).mp hn).1 hr
  have hown : ∀ n, G'.own n = G.own n := by
    intro n
    obtain e | ha := hcases h hr n
    · obtain e' | ha' := hcases h' hr' n
      · rw [e, e']
      · exact ((hf.own n (Set.notMem_empty n) _ ha').mp rfl).symm
    · exact (hf.own n (Set.notMem_empty n) _ ha).mpr rfl
  have hne : ∀ {r'}, G.live r' → r' ≠ r := by
    rintro r' hlive rfl
    exact hr hlive
  constructor
  · exact funext hown
  · intro r'
    by_cases e : r' = r
    · rw [e]
      exact ⟨fun hl => absurd hl hr', fun hl => absurd hl hr⟩
    · exact hf.live r' e
  · intro r' hlive
    exact hf.leaf r' (hne hlive)
  · intro n hn
    exact hf.bytes n (Set.notMem_empty n) ((hcases h hr n).resolve_left hn)

/-! ## A new page table -/

/-- Any free page may become the page table of a process. -/
def UserTables (owns : ℕ → ℕ → Prop) (G : Ghost H) : Prop :=
  ∀ n, G.own n = .free → ∀ v, owns n v ↔ v < top

theorem uvmcreate_spec (x : H) (h : MemOk cfg owns s G) :
    Spec (uvmcreate cfg) s (fun res s' => ∃ G', MemOk cfg owns s' G' ∧ match res with
      | none => Same s s' G G'
      | some pa => ∃ r, pa = 4096 * r ∧ G.own r = .free ∧ G'.live r ∧
          (∀ v, G'.leaf r v = 0) ∧ Frame r Set.univ ∅ s s' G G') Never := by
  unfold uvmcreate
  rw [spec_bind]
  refine (kalloc_spec h).imp fun res s1 h1 => ?_
  cases res with
  | none =>
    obtain ⟨h1, hm⟩ := h1
    rw [spec_pure]
    exact ⟨G, h1, rfl, fun _ => .rfl, fun _ _ => rfl, fun n _ => hm ▸ .refl _ n⟩
  | some pa =>
    obtain ⟨r, rfl, hfree, h1, hm⟩ := h1
    have hne : ∀ n, n ≠ r → SamePage s1.mem (s1.mem.fill (4096 * r) PGSIZE 0) n := fun n hn =>
      samePage_fill hn
    have h2 := (h1 x).data_held (give_self ..) hne s1.calls
    have h3 := h2.new_root (give_self ..) fun j hj => entry_fill_zero hj
    rw [spec_bind, spec_memset, spec_pure]
    refine ⟨_, h3, r, rfl, hfree, .inl rfl, fun v => ?_, ?_⟩
    · rw [newRoot_leaf_self]
    · refine Frame.of_give (k := r) (z := .node r 2 0) ?_ (fun _ => ?_) (fun n hn _ => ?_)
        (fun r' hr' => ?_) fun r' hr' => ?_
      · exact update_idem ..
      · rw [hfree]
        exact ⟨id, fun h => h rfl⟩
      · exact (hm n hn).trans (hne n hn)
      · exact newRoot_leaf_ne _ hr'
      · exact or_iff_right hr'

/-- The page table `r` of a process with `N` user pages and the trapframe in page `t`. -/
structure ProcPt (cfg : Config) (G : Ghost H) (t r N : ℕ) : Prop where
  user : UserPt G r N
  trapframe : G.leaf r top = 1024 * t + 7
  trampoline : G.leaf r (top + 1) = 1024 * (cfg.trampoline / 4096) + 11
  beyond : ∀ v, top + 1 < v → G.leaf r v = 0

theorem ProcPt.congr (hp : ProcPt cfg G t r N) (hlive : G'.live r) (hL : G'.leaf r = G.leaf r) :
    ProcPt cfg G' t r N where
  user := ⟨hlive, by rw [hL]; exact hp.user.mapped, by rw [hL]; exact hp.user.empty⟩
  trapframe := by rw [hL, hp.trapframe]
  trampoline := by rw [hL, hp.trampoline]
  beyond := by rw [hL]; exact hp.beyond

theorem trampoline_eq : TRAMPOLINE = 4096 * (top + 1) := by decide

theorem unmap_top (h : MemOk cfg owns s G) (hr : G.live r) (hown : ¬ owns r u) (hu : u < 2 ^ 26)
    (hL : G.leaf r u ≠ 0 ∧ G.leaf r u % 1024 ≠ 1) :
    Spec (uvmunmap cfg (4096 * r) (4096 * u) 1 false) s
      (fun _ => Mapped cfg owns r Set.univ s G (update (G.leaf r) u 0)) Never := by
  unfold uvmunmap
  rw [if_neg (by unfold PGSIZE; omega)]
  refine (unmapLoop_spec (D := Set.univ) h hr (by omega) fun v hv hv' => ?_).imp ?_
  · obtain rfl : v = u := by omega
    exact ⟨hL.1, hL.2, iff_of_false hown (by decide), trivial⟩
  · rintro _ s' ⟨G', h', hlive, hframe, hleaf⟩
    refine ⟨G', h', hlive, hframe, funext fun v => ?_⟩
    rw [hleaf]
    by_cases e : v = u
    · rw [if_pos (by omega), e, update_self]
    · rw [if_neg (by omega), update_of_ne e]

theorem map_top (x : H) {pa perm : ℕ} (h : MemOk cfg owns s G) (hr : G.live r)
    (hown : ¬ owns r u) (hu : u < 2 ^ 26) (h0 : G.leaf r u = 0) (hpa : pa < 2 ^ 64)
    (hp : perm < 1024) :
    Spec (mappages cfg (4096 * r) (4096 * u) PGSIZE pa perm) s (fun res =>
      Mapped cfg owns r Set.univ s G (if res then
        update (G.leaf r) u (1024 * (pa / 4096) + (perm ||| PTE_V)) else G.leaf r))
      Never := by
  rw [mappages_one]
  refine (mapOne_plain x h hr hu h0 hown hpa hp).imp ?_
  rintro res s' ⟨G', h', -, -, hext⟩
  exact ⟨G', h', hext.live, hext.frame.mono (Set.empty_subset _) subset_rfl, hext.leaf⟩

/-- The page table `r` is gone, and no other was touched. -/
def Dropped (cfg : Config) (owns : ℕ → ℕ → Prop) (r : ℕ) (s : Phys) (G : Ghost H) (s' : Phys) :
    Prop :=
  ∃ G', MemOk cfg owns s' G' ∧ ¬ G'.live r ∧ Frame r Set.univ ∅ s s' G G'

theorem Dropped.trans (hframe : Frame r Set.univ ∅ s s1 G G1) (h : Dropped cfg owns r s1 G1 s') :
    Dropped cfg owns r s G s' := by
  obtain ⟨G', h', hdead, hframe'⟩ := h
  exact ⟨G', h', hdead, hframe.trans hframe'⟩

theorem procFreepagetable_spec {sz : ℕ} (h : MemOk cfg owns s G) (hu : ∀ v, owns r v ↔ v < top)
    (hp : ProcPt cfg G t r (pages sz)) :
    Spec (procFreepagetable cfg (4096 * r) sz) s (fun _ => Dropped cfg owns r s G) Never := by
  have htop : ∀ v, top ≤ v → ¬ owns r v := fun v hv => by rw [hu]; omega
  unfold procFreepagetable
  rw [spec_bind, trampoline_eq, trapframe_eq]
  have htramp : G.leaf r (top + 1) ≠ 0 ∧ G.leaf r (top + 1) % 1024 ≠ 1 := by
    rw [hp.trampoline]
    omega
  refine (unmap_top h hp.user.live (htop _ (Nat.le_succ _)) (by decide) htramp).imp ?_
  rintro _ s1 ⟨G1, h1, hlive1, hframe1, hL1⟩
  have htrap : G1.leaf r top ≠ 0 ∧ G1.leaf r top % 1024 ≠ 1 := by
    rw [hL1, update_of_ne (by decide), hp.trapframe]
    omega
  rw [spec_bind]
  refine (unmap_top h1 ((hlive1 r).mpr hp.user.live) (htop _ le_rfl) (by decide) htrap).imp ?_
  rintro _ s2 ⟨G2, h2, hlive2, hframe2, hL2⟩
  have hL : ∀ v, G2.leaf r v = if top ≤ v then 0 else G.leaf r v := by
    intro v
    rw [hL2, hL1]
    by_cases e : v = top
    · rw [e, update_self, if_pos le_rfl]
    · rw [update_of_ne e]
      by_cases e' : v = top + 1
      · rw [e', update_self, if_pos (Nat.le_succ _)]
      · rw [update_of_ne e']
        split_ifs with hv
        · exact hp.beyond v (by omega)
        · rfl
  have hN := hp.user.lt h hu
  refine (uvmfree_spec h2 hu ⟨(hlive2 r).mpr ((hlive1 r).mpr hp.user.live), fun v hv => ?_,
    fun v hv hv' => ?_⟩ fun v hv => ?_).imp fun _ s3 h3 => ?_
  · rw [hL, if_neg (by omega)]
    exact hp.user.mapped v hv
  · rw [hL, if_neg (by omega)]
    exact hp.user.empty v hv hv'
  · rw [hL, if_pos hv]
  · exact Dropped.trans (hframe1.trans hframe2) h3

/-- `proc_pagetable` makes a page table without user pages, or leaves nothing behind. -/
theorem procPagetable_spec (x : H) (h : MemOk cfg owns s G) (hut : UserTables owns G)
    (ht : 4096 * t < 2 ^ 64) :
    Spec (procPagetable cfg (4096 * t)) s (fun res s' => ∃ G', MemOk cfg owns s' G' ∧ match res with
      | none => Same s s' G G'
      | some pa => ∃ r, pa = 4096 * r ∧ G.own r = .free ∧ ProcPt cfg G' t r 0 ∧
          Frame r Set.univ ∅ s s' G G') Never := by
  unfold procPagetable
  rw [spec_bind]
  refine (uvmcreate_spec x h).imp ?_
  rintro res s1 ⟨G1, h1, hres⟩
  cases res with
  | none =>
    rw [spec_pure]
    exact ⟨G1, h1, hres⟩
  | some pa =>
    obtain ⟨r, rfl, hfree, hlive1, hL1, hframe1⟩ := hres
    have hu := hut r hfree
    have htop : ∀ v, top ≤ v → ¬ owns r v := fun v hv => by rw [hu]; omega
    have hdead : ¬ G.live r := fun hl => by
      have := (h.tree r hl).root
      rw [hfree] at this
      cases this
    -- what is left of a table that could not be finished
    have hsame : ∀ s2 : Phys, Dropped cfg owns r s1 G1 s2 →
        ∃ G', MemOk cfg owns s2 G' ∧ Same s s2 G G' := by
      rintro s2 ⟨G2, h2, hdead2, hframe2⟩
      exact ⟨G2, h2, .of_frame (hframe1.trans hframe2) h h2 hdead hdead2⟩
    have huser : ∀ {G2 : Ghost H}, G2.live r → (∀ v, v < top → G2.leaf r v = 0) → UserPt G2 r 0 :=
      fun hl h0 => ⟨hl, fun v hv => absurd hv (Nat.not_lt_zero v), fun v _ hv => h0 v hv⟩
    dsimp only
    have htramp : cfg.trampoline < 2 ^ 64 := by
      have h1 := cfg.etext_eq
      have h2 := cfg.etext_le
      have h3 := cfg.room
      have h4 : PHYSTOP < 2 ^ 64 := by decide
      omega
    rw [spec_bind, trampoline_eq, trapframe_eq]
    refine (map_top x h1 hlive1 (htop _ (Nat.le_succ _)) (by decide) (hL1 _) htramp
      (by decide)).imp ?_
    rintro ok s2 ⟨G2, h2, hlive2, hframe2, hL2⟩
    cases ok with
    | false =>
      rw [if_neg (by decide)] at hL2
      rw [if_neg (by decide), spec_bind]
      have h20 : ∀ v, G2.leaf r v = 0 := fun v => by rw [hL2, hL1]
      have hp2 : UserPt G2 r (pages 0) := huser ((hlive2 r).mpr hlive1) fun v _ => h20 v
      refine (uvmfree_spec h2 hu hp2 fun v _ => h20 v).imp fun _ s3 h3 => ?_
      rw [spec_pure]
      exact hsame s3 (Dropped.trans hframe2 h3)
    | true =>
      rw [if_pos rfl] at hL2
      have hlive2' := (hlive2 r).mpr hlive1
      have h20 : ∀ v, v ≠ top + 1 → G2.leaf r v = 0 := fun v hv => by
        rw [hL2, update_of_ne hv, hL1]
      have h21 : G2.leaf r (top + 1) = 1024 * (cfg.trampoline / 4096) + 11 := by
        rw [hL2, update_self]
        rfl
      rw [if_pos rfl, spec_bind]
      refine (map_top x h2 hlive2' (htop _ le_rfl) (by decide) (h20 _ (by decide)) ht
        (by decide)).imp ?_
      rintro ok s3 ⟨G3, h3, hlive3, hframe3, hL3⟩
      have hlive3' := (hlive3 r).mpr hlive2'
      cases ok with
      | true =>
        rw [if_pos rfl] at hL3
        rw [if_pos rfl, spec_pure]
        refine ⟨G3, h3, r, rfl, hfree, ⟨huser hlive3' fun v hv => ?_, ?_, ?_, fun v hv => ?_⟩,
          (hframe1.trans hframe2).trans hframe3⟩
        · rw [hL3, update_of_ne (by omega), h20 v (by omega)]
        · rw [hL3, update_self, Nat.mul_div_cancel_left _ (by decide)]
          rfl
        · rw [hL3, update_of_ne (by decide), h21]
        · rw [hL3, update_of_ne (by omega), h20 v (by omega)]
      | false =>
        rw [if_neg (by decide)] at hL3
        rw [if_neg (by decide), spec_bind]
        refine (unmap_top h3 hlive3' (htop _ (Nat.le_succ _)) (by decide) ?_).imp ?_
        · rw [hL3, h21]
          omega
        rintro _ s4 ⟨G4, h4, hlive4, hframe4, hL4⟩
        have h40 : ∀ v, G4.leaf r v = 0 := by
          intro v
          rw [hL4]
          by_cases e : v = top + 1
          · rw [e, update_self]
          · rw [update_of_ne e, hL3, h20 v e]
        have hp4 : UserPt G4 r (pages 0) := huser ((hlive4 r).mpr hlive3') fun v _ => h40 v
        rw [spec_bind]
        refine (uvmfree_spec h4 hu hp4 fun v _ => h40 v).imp fun _ s5 h5 => ?_
        rw [spec_pure]
        exact hsame s5 (Dropped.trans ((hframe2.trans hframe3).trans hframe4) h5)

end TatakOS.Mem
