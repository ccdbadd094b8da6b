import TatakOS.Mem.Own
import Mathlib.Data.Finset.Card

/-!
# `walk`, `mappages` and `uvmunmap`

What the functions of `vm.c` that change a page table do to the account of the pages.
-/

namespace TatakOS.Mem

open Function

/-- No panic. -/
def Never : Panic → Prop := fun _ => False

/-- There are `N` free pages, those that `kalloc` has already handed out included. -/
def Room {H : Type} (N : ℕ) (s : Phys) (G : Ghost H) : Prop :=
  ∃ F : Finset ℕ, (∀ n ∈ F, G.own n = .free) ∧ N ≤ F.card + s.calls

/-- The page table `r` has at most got more pages. -/
structure Grows {H : Type} (r : ℕ) (s s' : Phys) (G G' : Ghost H) : Prop where
  frame : Frame r ∅ ∅ s s' G G'
  leaf : G'.leaf = G.leaf
  live : ∀ r', G'.live r' ↔ G.live r'
  node : ∀ n l p, G.own n = .node r l p → G'.own n = .node r l p

/-- What came to pass with at most `c` calls of `kalloc`, unless it failed for want of memory. -/
structure Costs {H : Type} (cfg : Config) (c : ℕ) (s s' : Phys) (G G' : Ghost H)
    (failed : Prop) : Prop where
  calls : ¬ failed → s'.calls ≤ s.calls + c
  room : ¬ failed → ∀ N, Room N s G → Room N s' G'
  full : failed → (∃ i, cfg.fails i = true) ∨ ∀ N, Room N s G → N < s.calls + c

variable {H : Type} {cfg : Config} {owns : ℕ → ℕ → Prop} {s s' s'' : Phys} {G G' G'' : Ghost H}
  {D : Set ℕ} {n k r l p i v w : ℕ} {x : H}

theorem Grows.refl (r : ℕ) (s : Phys) (G : Ghost H) : Grows r s s G G :=
  ⟨Frame.refl _ _ _ _ _, rfl, fun _ => Iff.rfl, fun _ _ _ => id⟩

theorem Grows.trans (h : Grows r s s' G G') (h' : Grows r s' s'' G' G'') : Grows r s s'' G G'' :=
  ⟨h.frame.trans h'.frame, h'.leaf.trans h.leaf, fun r' => (h'.live r').trans (h.live r'),
    fun n l p hn => h'.node n l p (h.node n l p hn)⟩

theorem Costs.refl (cfg : Config) (c : ℕ) (s : Phys) (G : Ghost H) : Costs cfg c s s G G False :=
  ⟨fun _ => Nat.le_add_right _ _, fun _ _ => id, nofun⟩

theorem Costs.trans {c c' : ℕ} {P P' : Prop} (h : Costs cfg c s s' G G' P) (hP : ¬ P)
    (h' : Costs cfg c' s' s'' G' G'' P') : Costs cfg (c + c') s s'' G G'' P' := by
  have hc := h.calls hP
  refine ⟨fun hP' => ?_, fun hP' N hN => h'.room hP' N (h.room hP N hN), fun hP' => ?_⟩
  · have := h'.calls hP'
    omega
  · refine (h'.full hP').imp id fun hfull N hN => ?_
    have := hfull N (h.room hP N hN)
    omega

theorem Costs.congr {c : ℕ} {P P' : Prop} (h : Costs cfg c s s' G G' P) (hP : P ↔ P') :
    Costs cfg c s s' G G' P' := by
  rwa [← propext hP]

theorem Costs.of_own {c : ℕ} (h : Costs cfg c s s' G G' False) (hc : s''.calls = s'.calls)
    (hfree : ∀ n, G'.own n = .free → G''.own n = .free) : Costs cfg c s s'' G G'' False := by
  refine ⟨fun hP => ?_, fun hP N hN => ?_, nofun⟩
  · rw [hc]
    exact h.calls hP
  · obtain ⟨F, hF, hle⟩ := h.room hP N hN
    exact ⟨F, fun n hn => hfree n (hF n hn), by rwa [hc]⟩

theorem Costs.mono {c c' : ℕ} {P : Prop} (h : Costs cfg c s s' G G' P) (hc : c ≤ c') :
    Costs cfg c' s s' G G' P := by
  refine ⟨fun hP => ?_, h.room, fun hP => (h.full hP).imp id fun hfull N hN => ?_⟩
  · have := h.calls hP
    omega
  · have := hfull N hN
    omega

/-! ## `kalloc` and `kfree` -/

theorem kalloc_spec (h : MemOk cfg owns s G) : Spec (kalloc cfg) s (fun res s' =>
      match res with
      | none => MemOk cfg owns s' G ∧ s'.mem = s.mem
      | some pa => ∃ n, pa = 4096 * n ∧ G.own n = .free ∧
          (∀ x : H, MemOk cfg owns s' (G.give n (.held x))) ∧
          ∀ n', n' ≠ n → SamePage s.mem s'.mem n') Never := by
  unfold kalloc
  rw [spec_get_bind]
  by_cases hc : cfg.fails s.calls ∨ s.freelist = 0
  · rw [if_pos hc, spec_bind, spec_set, spec_pure]
    exact ⟨h.data (fun _ _ => SamePage.refl _ _) _, rfl⟩
  · rw [if_neg hc, spec_bind, spec_set, spec_pure]
    obtain ⟨n, hn, hf, ha⟩ := h.alloc (fun h0 => hc (.inr h0)) (s.calls + 1)
    refine ⟨n, hn, hf, ha, fun n' e => ?_⟩
    show SamePage s.mem (s.mem.fill s.freelist PGSIZE 5) n'
    rw [hn]
    exact samePage_fill e

theorem Room.give {N : ℕ} (h : Room N s G) (hc : s'.calls = s.calls + 1) (k : ℕ) (z : Own H) :
    Room N s' (G.give k z) := by
  obtain ⟨F, hF, hN⟩ := h
  refine ⟨F.erase k, fun n hn => ?_, ?_⟩
  · rw [Finset.mem_erase] at hn
    rw [give_ne _ _ hn.1]
    exact hF n hn.2
  · have := Finset.pred_card_le_card_erase (s := F) (a := k)
    omega

theorem kalloc_calls (h : MemOk cfg owns s G) :
    Spec (kalloc cfg) s (fun res s' => s'.calls = s.calls + 1 ∧
      (res = none → (∃ i, cfg.fails i = true) ∨ ∀ N, Room N s G → N < s.calls + 1)) Never := by
  unfold kalloc
  rw [spec_get_bind]
  by_cases hc : cfg.fails s.calls ∨ s.freelist = 0
  · rw [if_pos hc, spec_bind, spec_set, spec_pure]
    refine ⟨rfl, fun _ => hc.imp (fun hf => ⟨_, hf⟩) ?_⟩
    rintro h0 N ⟨F, hF, hN⟩
    obtain ⟨l, hl, -, hmem⟩ := h.free
    have hnil : l = [] := by
      cases l with
      | nil => rfl
      | cons a l => exact absurd (hl.1.symm.trans h0) hl.2.1
    have hempty : F = ∅ := by
      refine Finset.eq_empty_of_forall_notMem fun n hn => ?_
      have := (hmem (4096 * n)).mpr ⟨by omega, by
        rw [show 4096 * n / 4096 = n by omega]
        exact hF n hn⟩
      rw [hnil] at this
      cases this
    rw [hempty, Finset.card_empty] at hN
    omega
  · rw [if_neg hc, spec_bind, spec_set, spec_pure]
    exact ⟨rfl, nofun⟩

/-! ## `walk` -/

section Prim

variable {E : Panic → Prop} {a d c : ℕ}

@[simp] theorem spec_load {Q : ℕ → Phys → Prop} :
    Spec (load a) s Q E ↔ Q (s.mem.get a 8) s := by
  simp only [load, spec_bind, spec_get, spec_pure]

variable {Q : Unit → Phys → Prop}

@[simp] theorem spec_store :
    Spec (store a w) s Q E ↔ Q () { s with mem := s.mem.set a 8 w } := spec_modify

@[simp] theorem spec_memset {b : UInt8} :
    Spec (memset a b c) s Q E ↔ Q () { s with mem := s.mem.fill a c b } := spec_modify

@[simp] theorem spec_memmove :
    Spec (memmove a d c) s Q E ↔ Q () { s with mem := s.mem.move a d c } := spec_modify

@[simp] theorem spec_put {b : List UInt8} :
    Spec (put a b) s Q E ↔ Q () { s with mem := s.mem.blit a b } := spec_modify

end Prim

variable {own : ℕ → Own H} {L : ℕ → ℕ}

theorem walkLevel_spec_false {va : ℕ} (ht : Tree s.mem own r L) (hn : own n = .node r (l + 1) p) :
    Spec (walkLevel cfg va false (l + 1) (4096 * n)) s (fun res s' => s' = s ∧ match res with
      | none => ∀ k, own k ≠ .node r l (512 * p + PX (l + 1) va)
      | some pa => ∃ k, pa = 4096 * k ∧ own k = .node r l (512 * p + PX (l + 1) va)) Never := by
  unfold walkLevel
  simp only [spec_bind, spec_load]
  rcases ht.inner n l p _ hn (px_lt (l + 1) va) with ⟨e, hno⟩ | ⟨k, hk, e⟩
  · have e' : s.mem.get (4096 * n + 8 * PX (l + 1) va) 8 = 0 := e
    rw [e', if_neg (by simp), if_pos (by simp), spec_pure]
    exact ⟨rfl, hno⟩
  · have e' : s.mem.get (4096 * n + 8 * PX (l + 1) va) 8 = 1024 * k + 1 := e
    rw [e', if_pos (by rw [and_pte_v]; omega), spec_pure]
    refine ⟨rfl, k, ?_, hk⟩
    rw [pte2pa_eq]
    omega

theorem walkLevel_spec_true {va : ℕ} (x : H) (h : MemOk cfg owns s G)
    (hn : G.own n = .node r (l + 1) p) :
    Spec (walkLevel cfg va true (l + 1) (4096 * n)) s (fun res s' => ∃ G',
      MemOk cfg owns s' G' ∧ Grows r s s' G G' ∧
      (∀ c, ((∃ k, G.own k = .node r l (512 * p + PX (l + 1) va)) ∨ 1 ≤ c) →
        Costs cfg c s s' G G' (res = none)) ∧
      ∀ pa, res = some pa →
        ∃ k, pa = 4096 * k ∧ G'.own k = .node r l (512 * p + PX (l + 1) va)) Never := by
  have ht := h.tree r (h.node n r _ _ hn)
  unfold walkLevel
  simp only [spec_bind, spec_load]
  rcases ht.inner n l p _ hn (px_lt (l + 1) va) with ⟨e, hno⟩ | ⟨k, hk, e⟩
  · have e' : s.mem.get (4096 * n + 8 * PX (l + 1) va) 8 = 0 := e
    rw [e', if_neg (by simp), if_neg (by simp), spec_bind]
    have hone : ∀ c, ((∃ k, G.own k = .node r l (512 * p + PX (l + 1) va)) ∨ 1 ≤ c) → 1 ≤ c :=
      fun c hc => hc.resolve_left fun ⟨k, hk⟩ => hno k hk
    refine ((kalloc_spec h).and (kalloc_calls h)).imp ?_
    rintro (_ | pa) s1 ⟨h1, hcalls, hfull⟩
    · rw [spec_pure]
      exact ⟨G, h1.1, ⟨Frame.of_mem h1.2, rfl, fun _ => Iff.rfl, fun _ _ _ => id⟩,
        fun c hc => Costs.mono ⟨by simp, by simp, fun _ => hfull rfl⟩ (hone c hc), by simp⟩
    · obtain ⟨k, rfl, hfree, hk, hsame⟩ := h1
      simp only [spec_bind, spec_memset, spec_store, spec_pure]
      have hkn : k ≠ n := by
        rintro rfl
        rw [hn] at hfree
        cases hfree
      have hword : PA2PTE (4096 * k) ||| PTE_V = 1024 * k + 1 := pa2pte_or (by decide)
      have hfill : ∀ n', n' ≠ k → SamePage s.mem (s1.mem.fill (4096 * k) PGSIZE 0) n' :=
        fun n' e => (hsame n' e).trans (samePage_fill e)
      have h2 := (hk x).data_held (give_self G k _) (fun n' e => samePage_fill (v := 0) e) s1.calls
      have h3 := h2.link (k := k) (i := PX (l + 1) va) (by rw [give_ne _ _ hkn.symm]; exact hn)
        (px_lt _ _) (fun j hj => entry_fill_zero hj)
        (by rw [← e]; exact (hfill n hkn.symm).entry (px_lt _ _)) (give_self G k _)
      rw [give_give] at h3
      rw [hword]
      refine ⟨_, h3, ⟨?_, rfl, fun _ => Iff.rfl, fun n' l' p' hn' => ?_⟩,
        fun c hc => Costs.mono ⟨fun _ => hcalls.le,
          fun _ N hN => hN.give (by exact hcalls) _ _, by simp⟩ (hone c hc), fun pa hpa => ?_⟩
      · refine Frame.of_give rfl (fun _ => ⟨by rw [hfree]; exact id, fun hc => hc rfl⟩)
          (fun n' e ha => ?_) (fun _ _ => rfl) fun _ _ => Iff.rfl
        exact (hfill n' e).trans (samePage_set_apart hn (px_lt _ _) ha)
      · rw [give_ne, hn']
        rintro rfl
        rw [hfree] at hn'
        cases hn'
      · cases hpa
        exact ⟨k, rfl, give_self G k _⟩
  · have e' : s.mem.get (4096 * n + 8 * PX (l + 1) va) 8 = 1024 * k + 1 := e
    rw [e', if_pos (by rw [and_pte_v]; omega), spec_pure]
    refine ⟨G, h, Grows.refl _ _ _, fun c _ => (Costs.refl cfg c s G).congr (by simp),
      fun pa hpa => ?_⟩
    cases hpa
    refine ⟨k, ?_, hk⟩
    rw [pte2pa_eq]
    omega

theorem px_two (hv : v < 2 ^ 26) : PX 2 (4096 * v) = v / 262144 := by
  rw [px_eq]
  omega

theorem px_one (v : ℕ) : 512 * (v / 262144) + PX 1 (4096 * v) = v / 512 := by
  rw [px_eq]
  omega

theorem px_zero (v : ℕ) : PX 0 (4096 * v) = v % 512 := by
  rw [px_eq]
  omega

theorem not_maxva_le (hv : v < 2 ^ 26) : ¬ MAXVA ≤ 4096 * v := by
  unfold MAXVA
  rw [Nat.shiftLeft_eq]
  omega

theorem walk_spec_false (ht : Tree s.mem own r L) (hv : v < 2 ^ 26) :
    Spec (walk cfg (4096 * r) (4096 * v) false) s (fun res s' => s' = s ∧ match res with
      | none => ∀ k, own k ≠ .node r 0 (v / 512)
      | some a => ∃ k, a = 4096 * k + 8 * (v % 512) ∧ own k = .node r 0 (v / 512)) Never := by
  unfold walk
  rw [if_neg (not_maxva_le hv), spec_bind]
  refine (walkLevel_spec_false ht ht.root).imp ?_
  rw [px_two hv]
  rintro (_ | pa) s' ⟨rfl, h1⟩
  · rw [spec_pure]
    refine ⟨rfl, fun k hk => ?_⟩
    obtain ⟨k', hk'⟩ := ht.parent k 0 _ hk (by norm_num)
    refine h1 k' ?_
    rw [hk']
    congr 1
    omega
  · obtain ⟨k1, rfl, hk1⟩ := h1
    show Spec (walkLevel cfg (4096 * v) false 1 (4096 * k1) >>= _) s' _ Never
    rw [spec_bind]
    refine (walkLevel_spec_false ht hk1).imp ?_
    rw [show 512 * (512 * 0 + v / 262144) + PX (0 + 1) (4096 * v) = v / 512 by
      simpa using px_one v]
    rintro (_ | pa) s' ⟨rfl, h2⟩
    · rw [spec_pure]
      exact ⟨rfl, h2⟩
    · obtain ⟨k0, rfl, hk0⟩ := h2
      rw [spec_pure]
      refine ⟨rfl, k0, ?_, hk0⟩
      rw [px_zero]

theorem walk_spec_true (x : H) (h : MemOk cfg owns s G) (hr : G.live r) (hv : v < 2 ^ 26) :
    Spec (walk cfg (4096 * r) (4096 * v) true) s (fun res s' => ∃ G',
      MemOk cfg owns s' G' ∧ Grows r s s' G G' ∧
      (∀ c, ((∃ k, G.own k = .node r 0 (v / 512)) ∨ 2 ≤ c) → Costs cfg c s s' G G' (res = none)) ∧
      ∀ a, res = some a → ∃ k, a = 4096 * k + 8 * (v % 512) ∧ G'.own k = .node r 0 (v / 512))
      Never := by
  have ht := h.tree r hr
  unfold walk
  rw [if_neg (not_maxva_le hv), spec_bind]
  refine (walkLevel_spec_true x h ht.root).imp ?_
  rw [px_two hv]
  -- the table of the level above is there if the one at the bottom is
  have hup : (∃ k, G.own k = .node r 0 (v / 512)) →
      ∃ k, G.own k = .node r 1 (512 * 0 + v / 262144) := by
    rintro ⟨k, hk⟩
    obtain ⟨k', hk'⟩ := ht.parent k 0 _ hk (by norm_num)
    refine ⟨k', ?_⟩
    rw [hk']
    congr 1
    omega
  rintro (_ | pa) s1 ⟨G1, h1, hg1, hc1, hres⟩
  · rw [spec_pure]
    refine ⟨G1, h1, hg1, fun c hc => hc1 c ?_, nofun⟩
    exact hc.imp hup fun hc => by omega
  · obtain ⟨k1, rfl, hk1⟩ := hres pa rfl
    show Spec (walkLevel cfg (4096 * v) true 1 (4096 * k1) >>= _) s1 _ Never
    rw [spec_bind]
    refine (walkLevel_spec_true x h1 hk1).imp ?_
    rw [show 512 * (512 * 0 + v / 262144) + PX (0 + 1) (4096 * v) = v / 512 by
      simpa using px_one v]
    rintro res s2 ⟨G2, h2, hg2, hc2, hres2⟩
    have hcosts : ∀ c, ((∃ k, G.own k = .node r 0 (v / 512)) ∨ 2 ≤ c) →
        Costs cfg c s s2 G G2 (res = none) := by
      rintro c (⟨k, hk⟩ | hc)
      · have h0 := (hc1 0 (.inl (hup ⟨k, hk⟩))).trans nofun (hc2 0 (.inl ⟨k, hg1.node k 0 _ hk⟩))
        exact h0.mono (by omega)
      · exact ((hc1 1 (.inr le_rfl)).trans nofun (hc2 1 (.inr le_rfl))).mono hc
    cases res with
    | none =>
      rw [spec_pure]
      exact ⟨G2, h2, hg1.trans hg2, hcosts, nofun⟩
    | some pa =>
      obtain ⟨k0, rfl, hk0⟩ := hres2 pa rfl
      rw [spec_pure]
      refine ⟨G2, h2, hg1.trans hg2, fun c hc => (hcosts c hc).congr (by simp),
        fun a ha => ⟨k0, ?_, hk0⟩⟩
      rw [← Option.some.inj ha, px_zero]

theorem Tree.get_entry {m : Bytes} (ht : Tree m own r L)
    (hk : own k = .node r 0 (v / 512)) : m.get (4096 * k + 8 * (v % 512)) 8 = L v := by
  have := ht.bottom k _ (v % 512) hk (by omega)
  rwa [show 512 * (v / 512) + v % 512 = v by omega] at this

theorem MemOk.get_entry (h : MemOk cfg owns s G) (hk : G.own k = .node r 0 (v / 512)) :
    s.mem.get (4096 * k + 8 * (v % 512)) 8 = G.leaf r v :=
  (h.tree r (h.node k r _ _ hk)).get_entry hk

theorem walk_mapped (ht : Tree s.mem own r L) (hv : v < 2 ^ 26) (hL : L v ≠ 0) :
    Spec (walk cfg (4096 * r) (4096 * v) false) s (fun res s' => s' = s ∧
      ∃ k, res = some (4096 * k + 8 * (v % 512)) ∧ own k = .node r 0 (v / 512)) Never := by
  refine (walk_spec_false ht hv).imp ?_
  rintro (_ | a) s' ⟨rfl, h1⟩
  · obtain ⟨k, hk⟩ := ht.dom v hL
    exact absurd hk (h1 k)
  · obtain ⟨k, rfl, hk⟩ := h1
    exact ⟨rfl, k, rfl, hk⟩

/-! ## `mappages` of one page -/

theorem mappages_one (pa perm : ℕ) :
    mappages cfg r (4096 * v) PGSIZE pa perm = mapOne cfg r perm (4096 * v) pa := by
  have h1 : PGROUNDDOWN (4096 * v) = 4096 * v := by
    unfold PGROUNDDOWN PGSIZE
    omega
  have h2 : PGROUNDDOWN (4096 * v + PGSIZE - 1) = 4096 * v := by
    unfold PGROUNDDOWN PGSIZE
    omega
  unfold mappages
  rw [if_neg (by unfold PGSIZE; norm_num)]
  simp only [h1, h2, Nat.sub_self, Nat.zero_div]
  rfl

theorem mapOne_cases (x : H) {pa perm : ℕ} {Q : Bool → Phys → Prop} (h : MemOk cfg owns s G)
    (hr : G.live r) (hv : v < 2 ^ 26) (h0 : G.leaf r v = 0)
    (hfail : ∀ s' G', MemOk cfg owns s' G' → Grows r s s' G G' →
      (∀ c, ((∃ k, G.own k = .node r 0 (v / 512)) ∨ 2 ≤ c) → Costs cfg c s s' G G' True) →
      Q false s')
    (hok : ∀ s' G' k, MemOk cfg owns s' G' → Grows r s s' G G' →
      (∀ c, ((∃ k, G.own k = .node r 0 (v / 512)) ∨ 2 ≤ c) → Costs cfg c s s' G G' False) →
      G'.own k = .node r 0 (v / 512) → Q true { s' with
        mem := s'.mem.set (4096 * k + 8 * (v % 512)) 8 (PA2PTE pa ||| perm ||| PTE_V) }) :
    Spec (mapOne cfg (4096 * r) perm (4096 * v) pa) s Q Never := by
  unfold mapOne
  rw [spec_bind]
  refine (walk_spec_true x h hr hv).imp ?_
  rintro (_ | a) s1 ⟨G1, h1, hg, hc, hres⟩
  · rw [spec_pure]
    exact hfail s1 G1 h1 hg fun c hP => (hc c hP).congr (by simp)
  · obtain ⟨k, rfl, hk⟩ := hres a rfl
    simp only [spec_bind, spec_load]
    rw [h1.get_entry hk, hg.leaf, h0, if_neg (by simp), spec_bind, spec_store, spec_pure]
    exact hok s1 G1 k h1 hg (fun c hP => (hc c hP).congr (by simp)) hk

theorem map_word {perm : ℕ} (hp : perm < 1024) :
    PA2PTE (4096 * k) ||| perm ||| PTE_V = 1024 * k + (perm ||| PTE_V) ∧
      (perm ||| PTE_V) < 1024 ∧ (1024 * k + (perm ||| PTE_V)) % 2 = 1 := by
  have hlt : (perm ||| PTE_V) < 2 ^ 10 := Nat.or_lt_two_pow hp (by decide)
  have hodd : (perm ||| PTE_V) % 2 = 1 := by
    rw [← Nat.and_one_is_mod, Nat.and_or_distrib_right]
    have : perm &&& 1 = 0 ∨ perm &&& 1 = 1 := by
      rw [Nat.and_one_is_mod]
      omega
    rcases this with e | e <;> rw [e] <;> rfl
  rw [Nat.or_assoc, pa2pte_or hlt]
  exact ⟨rfl, hlt, by omega⟩

theorem mapOne_owned {perm : ℕ} (h : MemOk cfg owns s G) (hr : G.live r) (hv : v < 2 ^ 26)
    (h0 : G.leaf r v = 0) (hown : owns r v) (hk : G.own k = .held x) (hp : perm < 1024) :
    Spec (mapOne cfg (4096 * r) perm (4096 * v) (4096 * k)) s (fun res s' => ∃ G',
      MemOk cfg owns s' G' ∧ (∀ r', G'.live r' ↔ G.live r') ∧
      Costs cfg 2 s s' G G' (res = false) ∧
      if res then
        Frame r ∅ {k} s s' G G' ∧ SamePage s.mem s'.mem k ∧ G'.own k = .leaf r v ∧
          G'.leaf r = update (G.leaf r) v (1024 * k + (perm ||| PTE_V))
      else Grows r s s' G G') Never := by
  obtain ⟨hword, hlt, hodd⟩ := map_word (k := k) hp
  refine mapOne_cases x h hr hv h0 ?_ ?_
  · intro s' G' h' hg hc
    exact ⟨G', h', hg.live, (hc 2 (.inr le_rfl)).congr (by simp), hg⟩
  · intro s' G' n h' hg hc hn
    have hv' : 512 * (v / 512) + v % 512 = v := by omega
    have hk' : G'.own k = .held x := (hg.frame.held (Set.notMem_empty k) x).mpr hk
    have hmap := h'.map_page hn (show v % 512 < 512 by omega) (by rwa [hv']) (by
      rw [hv', hg.leaf]; exact h0) hk' hodd (by omega)
    rw [hv'] at hmap
    rw [hword]
    have hfree : ∀ n', G'.own n' = .free → (G'.give k (.leaf r v)).own n' = .free := by
      intro n' hn'
      rw [give_ne, hn']
      rintro rfl
      rw [hk'] at hn'
      cases hn'
    refine ⟨_, hmap, hg.live,
      Costs.congr ((hc 2 (.inr le_rfl)).of_own (by rfl) (by exact hfree)) (by simp), ?_⟩
    rw [if_pos rfl]
    have hframe := hg.frame.mono (Set.empty_subset ∅) (Set.empty_subset {k})
    refine ⟨hframe.trans (Frame.map_page hn (by omega) k v), ?_, give_self G' k _, ?_⟩
    · refine (hg.frame.bytes k (Set.notMem_empty k) (by rw [hk]; trivial)).trans ?_
      exact samePage_set_apart (D := ∅) hn (by omega) (by rw [hk']; trivial)
    · rw [← hg.leaf]
      exact update_self ..

/-- The page table `r` may have got more pages, and its leaf entries are `L`. -/
structure Extends (r : ℕ) (L : ℕ → ℕ) (s s' : Phys) (G G' : Ghost H) : Prop where
  frame : Frame r ∅ ∅ s s' G G'
  live : ∀ r', G'.live r' ↔ G.live r'
  node : ∀ n l p, G.own n = .node r l p → G'.own n = .node r l p
  leaf : G'.leaf r = L

theorem Extends.trans {L L' : ℕ → ℕ} (h : Extends r L s s' G G')
    (h' : Extends r L' s' s'' G' G'') : Extends r L' s s'' G G'' :=
  ⟨h.frame.trans h'.frame, fun r' => (h'.live r').trans (h.live r'),
    fun n l p hn => h'.node n l p (h.node n l p hn), h'.leaf⟩

theorem mapOne_plain (x : H) {pa perm : ℕ} (h : MemOk cfg owns s G) (hr : G.live r)
    (hv : v < 2 ^ 26) (h0 : G.leaf r v = 0) (hown : ¬ owns r v) (hpa : pa < 2 ^ 64)
    (hp : perm < 1024) :
    Spec (mapOne cfg (4096 * r) perm (4096 * v) pa) s (fun res s' => ∃ G',
      MemOk cfg owns s' G' ∧
      (∀ c, ((∃ k, G.own k = .node r 0 (v / 512)) ∨ 2 ≤ c) → Costs cfg c s s' G G' (res = false)) ∧
      (res = true → ∃ k, G'.own k = .node r 0 (v / 512)) ∧
      Extends r (if res then update (G.leaf r) v (1024 * (pa / 4096) + (perm ||| PTE_V))
        else G.leaf r) s s' G G') Never := by
  obtain ⟨hword, hlt, hodd⟩ := map_word (k := pa / 4096) hp
  rw [← pa2pte_div] at hword
  refine mapOne_cases x h hr hv h0 ?_ ?_
  · intro s' G' h' hg hc
    exact ⟨G', h', fun c hP => (hc c hP).congr (by simp), nofun, hg.frame, hg.live, hg.node,
      congrFun hg.leaf r⟩
  · intro s' G' n h' hg hc hn
    have hv' : 512 * (v / 512) + v % 512 = v := by omega
    have hmap := h'.set_entry hn (show v % 512 < 512 by omega) (.inr hodd) (by omega)
      fun ho => absurd (hv' ▸ ho) hown
    rw [hv'] at hmap
    rw [hword]
    refine ⟨_, hmap, fun c hP =>
      Costs.congr ((hc c hP).of_own (by rfl) (by exact fun _ => id)) (by simp),
      fun _ => ⟨n, hn⟩, ?_⟩
    rw [if_pos rfl]
    refine ⟨hg.frame.trans (Frame.set_entry hn (by omega) v), hg.live, hg.node, ?_⟩
    rw [← hg.leaf]
    exact update_self ..

/-! ## `uvmunmap` -/

/-- The state after the entry for virtual page `v` in the table in page `n` was cleared. -/
def Phys.cleared (s : Phys) (n v : ℕ) : Phys :=
  { s with mem := s.mem.set (4096 * n + 8 * (v % 512)) 8 0 }

theorem MemOk.unmap_owned (h : MemOk cfg owns s G) (hn : G.own n = .node r 0 (v / 512))
    (hL : G.leaf r v ≠ 0) (hown : owns r v) (hv : v ∈ D) :
    ∃ G', MemOk cfg owns ((s.freed (G.leaf r v / 1024)).cleared n v) G' ∧
      (∀ r', G'.live r' ↔ G.live r') ∧ G'.leaf r = update (G.leaf r) v 0 ∧
      Frame r D ∅ s ((s.freed (G.leaf r v / 1024)).cleared n v) G G' := by
  have hv' : 512 * (v / 512) + v % 512 = v := by omega
  have hk : G.own (G.leaf r v / 1024) = .leaf r v :=
    (h.leaf _ r v).mpr ⟨h.node n r _ _ hn, hown, hL, rfl⟩
  have hmap := h.unmap_page hn (show v % 512 < 512 by omega) (by rwa [hv'])
  rw [hv'] at hmap
  exact ⟨_, hmap, fun _ => Iff.rfl, update_self .., Frame.unmap_page hn (by omega) hk hv⟩

theorem MemOk.unmap_plain (h : MemOk cfg owns s G) (hn : G.own n = .node r 0 (v / 512))
    (hown : ¬ owns r v) : MemOk cfg owns (s.cleared n v) (G.setLeaf r v 0) := by
  have hv' : 512 * (v / 512) + v % 512 = v := by omega
  have hmap := h.set_entry hn (show v % 512 < 512 by omega) (.inl rfl) (by norm_num)
    fun ho => absurd (hv' ▸ ho) hown
  rwa [hv'] at hmap

/-- The loop of `uvmunmap` with an invariant `P`, given for the page that comes next. -/
theorem unmapLoop_induct (owns : ℕ → ℕ → Prop) {doFree : Bool} {P : ℕ → Phys → Ghost H → Prop}
    (hstep : ∀ u s G, v ≤ u → u < v + n → P u s G → MemOk cfg owns s G ∧ G.live r ∧ u < 2 ^ 26 ∧
      G.leaf r u ≠ 0 ∧ G.leaf r u % 1024 ≠ 1 ∧
      (doFree = true → G.own (G.leaf r u / 1024) ≠ .none) ∧
      ∀ k, G.own k = .node r 0 (u / 512) → ∃ G', P (u + 1)
        ((if doFree then s.freed (G.leaf r u / 1024) else s).cleared k u) G')
    (h : P v s G) :
    Spec (unmapLoop cfg (4096 * r) doFree n (4096 * v)) s (fun _ s' => ∃ G', P (v + n) s' G')
      Never := by
  induction n generalizing s G v with
  | zero =>
    rw [unmapLoop, spec_pure]
    exact ⟨G, h⟩
  | succ n ih =>
    obtain ⟨hm, hr, hu, hL, hflags, hfree, hnext⟩ := hstep v s G le_rfl (by omega) h
    rw [unmapLoop, spec_bind]
    refine (walk_mapped (hm.tree r hr) hu hL).imp ?_
    rintro _ s' ⟨rfl, k, rfl, hk⟩
    have hodd : G.leaf r v % 2 = 1 := ((hm.tree r hr).valid v).resolve_left hL
    obtain ⟨G', h'⟩ := hnext k hk
    have hrest := ih (v := v + 1) (fun u s G h1 h2 => hstep u s G (by omega) (by omega)) h'
    rw [show v + 1 + n = v + (n + 1) by omega] at hrest
    simp only [spec_bind, spec_load]
    rw [hm.get_entry hk, if_neg (by rw [and_pte_v]; omega), if_neg (by
      rw [pte_flags_eq]; exact hflags), spec_bind]
    by_cases hd : doFree = true
    · rw [if_pos hd] at hrest ⊢
      rw [pte2pa_eq, spec_of_eq_ok (kfree_eq hm (hfree hd)), spec_bind, spec_store]
      exact hrest
    · rw [if_neg hd] at hrest ⊢
      rw [spec_pure, spec_bind, spec_store]
      exact hrest

theorem unmapLoop_spec {doFree : Bool} (h : MemOk cfg owns s G) (hr : G.live r)
    (hv : v + n ≤ 2 ^ 26)
    (hmapped : ∀ u, v ≤ u → u < v + n →
      G.leaf r u ≠ 0 ∧ G.leaf r u % 1024 ≠ 1 ∧ (owns r u ↔ doFree = true) ∧ u ∈ D) :
    Spec (unmapLoop cfg (4096 * r) doFree n (4096 * v)) s (fun _ s' => ∃ G',
      MemOk cfg owns s' G' ∧ (∀ r', G'.live r' ↔ G.live r') ∧ Frame r D ∅ s s' G G' ∧
      ∀ u, G'.leaf r u = if v ≤ u ∧ u < v + n then 0 else G.leaf r u) Never := by
  refine unmapLoop_induct owns (G := G) (P := fun u s' G' => MemOk cfg owns s' G' ∧
    (∀ r', G'.live r' ↔ G.live r') ∧ Frame r D ∅ s s' G G' ∧
    ∀ u', G'.leaf r u' = if v ≤ u' ∧ u' < u then 0 else G.leaf r u') ?_ ?_
  · rintro u s1 G1 h1 h2 ⟨hm, hlive, hframe, hleaf⟩
    obtain ⟨hL, hflags, hdo, hD⟩ := hmapped u h1 h2
    have hLu : G1.leaf r u = G.leaf r u := by
      rw [hleaf, if_neg (by omega)]
    have hr1 := (hlive r).mpr hr
    -- what is left to show when the mapping of page `u` is gone
    have hnext : ∀ {s2 : Phys} {G2 : Ghost H}, MemOk cfg owns s2 G2 →
        (∀ r', G2.live r' ↔ G1.live r') → G2.leaf r = update (G1.leaf r) u 0 →
        Frame r D ∅ s1 s2 G1 G2 → MemOk cfg owns s2 G2 ∧ (∀ r', G2.live r' ↔ G.live r') ∧
        Frame r D ∅ s s2 G G2 ∧
        ∀ u', G2.leaf r u' = if v ≤ u' ∧ u' < u + 1 then 0 else G.leaf r u' := by
      intro s2 G2 hm2 hlive2 hleaf2 hframe2
      refine ⟨hm2, fun r' => (hlive2 r').trans (hlive r'), hframe.trans hframe2, fun u' => ?_⟩
      rw [hleaf2]
      by_cases e : u' = u
      · subst e
        rw [update_self, if_pos (by omega)]
      · rw [update_of_ne e, hleaf]
        exact if_congr (by omega) rfl rfl
    rw [← hLu] at hL hflags
    refine ⟨hm, hr1, by omega, hL, hflags, fun hd => ?_, fun k hk => ?_⟩
    · rw [(hm.leaf _ r u).mpr ⟨hr1, hdo.mpr hd, hL, rfl⟩]
      nofun
    · by_cases hd : doFree = true
      · rw [if_pos hd]
        obtain ⟨G2, hm2, hlive2, hleaf2, hframe2⟩ := hm.unmap_owned hk hL (hdo.mpr hd) hD
        exact ⟨G2, hnext hm2 hlive2 hleaf2 hframe2⟩
      · rw [if_neg hd]
        refine ⟨_, hnext (hm.unmap_plain hk fun ho => hd (hdo.mp ho)) (fun _ => Iff.rfl)
          (update_self ..) (Frame.set_entry hk (by omega) u)⟩
  · refine ⟨h, fun _ => Iff.rfl, Frame.refl _ _ _ _ _, fun u' => ?_⟩
    rw [if_neg (by omega)]

end TatakOS.Mem
