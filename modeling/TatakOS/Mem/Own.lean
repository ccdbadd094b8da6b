import TatakOS.Mem.Tree

/-!
# Who has which page

`MemOk cfg owns s G` ties the memory to an account `G` of it: every page that the allocator manages
is on the free list, part of one page table, mapped once, or held by somebody else. `owns r v` says
that a mapping of virtual page `v` in the page table `r` owns its page; the trampoline and the
trapframe are mapped without that.
-/

namespace TatakOS.Mem

open Function

/-! ## Words -/

theorem pte2pa_eq (w : ℕ) : PTE2PA w = 4096 * (w / 1024) := by
  unfold PTE2PA
  rw [Nat.shiftRight_eq_div_pow, Nat.shiftLeft_eq]
  omega

theorem and_pte_v (w : ℕ) : w &&& PTE_V = w % 2 := Nat.and_one_is_mod w

theorem pte_flags_eq (w : ℕ) : PTE_FLAGS w = w % 1024 := Nat.and_two_pow_sub_one_eq_mod w 10

theorem pa2pte_or {n f : ℕ} (hf : f < 1024) : PA2PTE (4096 * n) ||| f = 1024 * n + f := by
  unfold PA2PTE
  rw [Nat.shiftRight_eq_div_pow, Nat.shiftLeft_eq, Nat.mul_div_cancel_left n (by norm_num),
    Nat.mul_comm]
  exact (Nat.two_pow_add_eq_or_of_lt (i := 10) hf n).symm

theorem pa2pte_div (pa : ℕ) : PA2PTE pa = PA2PTE (4096 * (pa / 4096)) := by
  unfold PA2PTE
  rw [Nat.shiftRight_eq_div_pow, Nat.shiftRight_eq_div_pow]
  congr 1
  omega

theorem px_eq (l v : ℕ) : PX l (4096 * v) = v / 512 ^ l % 512 := by
  have h : (2 : ℕ) ^ (12 + 9 * l) = 4096 * 512 ^ l := by
    rw [pow_add, pow_mul]
    norm_num
  unfold PX
  rw [Nat.shiftRight_eq_div_pow, h, ← Nat.div_div_eq_div_mul,
    Nat.mul_div_cancel_left v (by norm_num)]
  exact Nat.and_two_pow_sub_one_eq_mod _ 9

theorem px_lt (l va : ℕ) : PX l va < 512 := Nat.lt_of_le_of_lt Nat.and_le_right (by norm_num)

/-! ## The account -/

structure Ghost (H : Type) where
  own : ℕ → Own H
  /-- The leaf entries of the page tables. -/
  leaf : ℕ → ℕ → ℕ
  /-- The roots of the page tables. -/
  live : ℕ → Prop

/-- The page changes hands. -/
def Ghost.give {H : Type} (G : Ghost H) (n : ℕ) (x : Own H) : Ghost H :=
  { G with own := update G.own n x }

/-- Page `n` becomes an empty page table. -/
def Ghost.newRoot {H : Type} (G : Ghost H) (n : ℕ) : Ghost H :=
  { G.give n (.node n 2 0) with
    leaf := update G.leaf n (fun _ => 0), live := fun r => r = n ∨ G.live r }

/-- The root of the page table `r` is freed. -/
def Ghost.dropRoot {H : Type} (G : Ghost H) (r : ℕ) : Ghost H :=
  { G.give r .free with live := fun r' => r' ≠ r ∧ G.live r' }

/-- The entry of virtual page `v` of the page table `r` changes. -/
def Ghost.setLeaf {H : Type} (G : Ghost H) (r v w : ℕ) : Ghost H :=
  { G with leaf := update G.leaf r (update (G.leaf r) v w) }

structure MemOk {H : Type} (cfg : Config) (owns : ℕ → ℕ → Prop) (s : Phys) (G : Ghost H) :
    Prop where
  managed : ∀ n, G.own n ≠ .none ↔ cfg.kend ≤ 4096 * n ∧ 4096 * n < PHYSTOP
  free : FreeList s.mem s.freelist fun a => a % 4096 = 0 ∧ G.own (a / 4096) = .free
  tree : ∀ r, G.live r → Tree s.mem G.own r (G.leaf r)
  node : ∀ n r l p, G.own n = .node r l p → G.live r
  leaf : ∀ n r v, G.own n = .leaf r v ↔ G.live r ∧ owns r v ∧ G.leaf r v ≠ 0 ∧ G.leaf r v / 1024 = n

variable {H : Type} {cfg : Config} {owns : ℕ → ℕ → Prop} {s s' : Phys} {G G' : Ghost H}
  {m' : Bytes} {n k r l p i v w : ℕ} {x y : H}

theorem MemOk.lt (h : MemOk cfg owns s G) (hn : G.own n ≠ .none) : 4096 * n < PHYSTOP :=
  ((h.managed n).mp hn).2

theorem MemOk.pos (h : MemOk cfg owns s G) (hn : G.own n ≠ .none) : n ≠ 0 := by
  have h1 := ((h.managed n).mp hn).1
  have h2 := cfg.kernbase_le
  have h3 := cfg.etext_eq
  have h4 := cfg.etext_le
  unfold KERNBASE at h2
  omega

theorem MemOk.freelist_lt (h : MemOk cfg owns s G) : s.freelist < 2 ^ 64 := by
  by_cases h0 : s.freelist = 0
  · rw [h0]
    norm_num
  · obtain ⟨ha, hf⟩ := (h.free.pop h0).1
    have := h.lt (n := s.freelist / 4096) (by rw [hf]; nofun)
    unfold PHYSTOP KERNBASE at this
    omega

/-- A free page keeps its link as long as it is not written to. -/
theorem SamePage.link {m : Bytes} {a : ℕ} (h : SamePage m m' (a / 4096)) (ha : a % 4096 = 0) :
    m'.get a 8 = m.get a 8 :=
  h.get (by omega) (by omega)

/-- Writing to pages that are neither free nor part of a page table. -/
theorem MemOk.data (h : MemOk cfg owns s G)
    (hm : ∀ n, (G.own n = .free ∨ ∃ r l p, G.own n = .node r l p) → SamePage s.mem m' n) (c : ℕ) :
    MemOk cfg owns { s with mem := m', calls := c } G := by
  refine ⟨h.managed, ?_, fun r hr => ?_, h.node, h.leaf⟩
  · exact h.free.congr (fun a ha => (hm _ (.inl ha.2)).link ha.1) fun _ => Iff.rfl
  · exact (h.tree r hr).congr (fun _ _ _ => Iff.rfl) fun n l p hn => hm n (.inr ⟨r, l, p, hn⟩)

/-! ## What stays -/

/-- The page belongs to another page table, or the allocator does not manage it. -/
def Own.Other (r : ℕ) : Own H → Prop
  | .none => True
  | .free | .held _ => False
  | .node r' _ _ | .leaf r' _ => r' ≠ r

/-- The page is in use, and for something other than the tables of `r` and its virtual pages
`D`. -/
def Own.Apart (r : ℕ) (D : Set ℕ) : Own H → Prop
  | .none | .held _ => True
  | .free => False
  | .node r' _ _ => r' ≠ r
  | .leaf r' v => r' = r → v ∉ D

/-- Of the pages outside of `X`, only those that are free or belong to the tables of `r` or to its
virtual pages `D` may have changed or changed hands. -/
structure Frame (r : ℕ) (D X : Set ℕ) (s s' : Phys) (G G' : Ghost H) : Prop where
  own : ∀ n, n ∉ X → ∀ o : Own H, o.Apart r D → (G'.own n = o ↔ G.own n = o)
  bytes : ∀ n, n ∉ X → (G.own n).Apart r D → SamePage s.mem s'.mem n
  leaf : ∀ r', r' ≠ r → G'.leaf r' = G.leaf r'
  live : ∀ r', r' ≠ r → (G'.live r' ↔ G.live r')

theorem Own.Other.apart {o : Own H} (h : o.Other r) (D : Set ℕ) : o.Apart r D := by
  cases o with
  | none => trivial
  | free => exact h
  | held _ => trivial
  | node _ _ _ => exact h
  | leaf _ _ => exact fun e => absurd e h

theorem Own.Apart.mono {D D' : Set ℕ} {o : Own H} (h : o.Apart r D') (hD : D ⊆ D') :
    o.Apart r D := by
  cases o with
  | leaf _ _ => exact fun e hv => h e (hD hv)
  | _ => exact h

section Frame

variable {D D' X X' : Set ℕ} {s'' : Phys} {G'' : Ghost H}

theorem Frame.refl (r : ℕ) (D X : Set ℕ) (s : Phys) (G : Ghost H) : Frame r D X s s G G :=
  ⟨fun _ _ _ _ => Iff.rfl, fun _ _ _ => SamePage.refl _ _, fun _ _ => rfl, fun _ _ => Iff.rfl⟩

section

variable (h : Frame r D X s s' G G')
include h

theorem Frame.trans (h' : Frame r D X s' s'' G' G'') : Frame r D X s s'' G G'' := by
  refine ⟨fun n hn o ho => (h'.own n hn o ho).trans (h.own n hn o ho), fun n hn ho => ?_,
    fun r' e => (h'.leaf r' e).trans (h.leaf r' e), fun r' e => (h'.live r' e).trans (h.live r' e)⟩
  have e : G'.own n = G.own n := (h.own n hn _ ho).mpr rfl
  exact (h.bytes n hn ho).trans (h'.bytes n hn (e ▸ ho))

theorem Frame.mono (hD : D ⊆ D') (hX : X ⊆ X') : Frame r D' X' s s' G G' :=
  ⟨fun n hn o ho => h.own n (fun hx => hn (hX hx)) o (ho.mono hD),
    fun n hn ho => h.bytes n (fun hx => hn (hX hx)) (ho.mono hD), h.leaf, h.live⟩

theorem Frame.close (hX : ∀ n ∈ X, n ∉ X' → ¬ (G.own n).Apart r D ∧ ¬ (G'.own n).Apart r D) :
    Frame r D X' s s' G G' := by
  refine ⟨fun n hn o ho => ?_, fun n hn ho => ?_, h.leaf, h.live⟩
  · by_cases hx : n ∈ X
    · obtain ⟨h1, h2⟩ := hX n hx hn
      exact ⟨fun e => absurd (e ▸ ho) h2, fun e => absurd (e ▸ ho) h1⟩
    · exact h.own n hx o ho
  · by_cases hx : n ∈ X
    · exact absurd ho (hX n hx hn).1
    · exact h.bytes n hx ho

theorem Frame.held (hn : n ∉ X) (x : H) : G'.own n = .held x ↔ G.own n = .held x :=
  h.own n hn _ trivial

end

theorem Frame.of_give {z : Own H} (hown : G'.own = update G.own k z)
    (hk : k ∉ X → ¬ (G.own k).Apart r D ∧ ¬ z.Apart r D)
    (hm : ∀ n, n ≠ k → (G.own n).Apart r D → SamePage s.mem s'.mem n)
    (hleaf : ∀ r', r' ≠ r → G'.leaf r' = G.leaf r')
    (hlive : ∀ r', r' ≠ r → (G'.live r' ↔ G.live r')) : Frame r D X s s' G G' := by
  refine ⟨fun n hn o ho => ?_, fun n hn ho => hm n ?_ ho, hleaf, hlive⟩
  · rw [hown]
    by_cases e : n = k
    · subst e
      rw [update_self]
      obtain ⟨h1, h2⟩ := hk hn
      exact ⟨fun e => absurd (e ▸ ho) h2, fun e => absurd (e ▸ ho) h1⟩
    · rw [update_of_ne e]
  · rintro rfl
    exact (hk hn).1 ho

theorem Frame.of_own (hown : G'.own = G.own)
    (hm : ∀ n, (G.own n).Apart r D → SamePage s.mem s'.mem n)
    (hleaf : ∀ r', r' ≠ r → G'.leaf r' = G.leaf r')
    (hlive : ∀ r', r' ≠ r → (G'.live r' ↔ G.live r')) : Frame r D X s s' G G' := by
  refine ⟨fun n _ o _ => ?_, fun n _ ho => hm n ho, hleaf, hlive⟩
  rw [hown]

theorem Frame.of_mem (h : s'.mem = s.mem) : Frame r D X s s' G G :=
  Frame.of_own rfl (fun n _ => h ▸ SamePage.refl _ n) (fun _ _ => rfl) fun _ _ => Iff.rfl

/-- What remains to be shown when only the page table `r` and pages outside of page tables
change. -/
theorem MemOk.change (h : MemOk cfg owns s G) (hf : Frame r D X s s' G G')
    (hX : ∀ n ∈ X, ¬ (G.own n).Other r ∧ ¬ (G'.own n).Other r)
    (hfree : FreeList s'.mem s'.freelist fun a => a % 4096 = 0 ∧ G'.own (a / 4096) = .free)
    (htree : G'.live r → Tree s'.mem G'.own r (G'.leaf r))
    (hnr : ∀ n l p, G'.own n = .node r l p → G'.live r)
    (hlr : ∀ n v, G'.own n = .leaf r v ↔
      G'.live r ∧ owns r v ∧ G'.leaf r v ≠ 0 ∧ G'.leaf r v / 1024 = n) : MemOk cfg owns s' G' := by
  have hown : ∀ n (o : Own H), o.Other r → (G'.own n = o ↔ G.own n = o) := by
    intro n o ho
    by_cases hx : n ∈ X
    · obtain ⟨h1, h2⟩ := hX n hx
      exact ⟨fun e => absurd (e ▸ ho) h2, fun e => absurd (e ▸ ho) h1⟩
    · exact hf.own n hx o (ho.apart D)
  have hmem : ∀ n, (G.own n).Other r → SamePage s.mem s'.mem n := by
    intro n ho
    exact hf.bytes n (fun hx => (hX n hx).1 ho) (ho.apart D)
  refine ⟨fun n => ?_, hfree, fun r' hr' => ?_, fun n r' l p hn => ?_, fun n r' v => ?_⟩
  · rw [ne_eq, hown n .none trivial]
    exact h.managed n
  · by_cases e : r' = r
    · subst e
      exact htree hr'
    · rw [hf.leaf r' e]
      refine (h.tree r' ((hf.live r' e).mp hr')).congr (fun n l p => hown n (.node r' l p) e) ?_
      intro n l p hn
      apply hmem
      rw [hn]
      exact e
  · by_cases e : r' = r
    · subst e
      exact hnr n l p hn
    · rw [hown n (.node r' l p) e] at hn
      exact (hf.live r' e).mpr (h.node n r' l p hn)
  · by_cases e : r' = r
    · subst e
      exact hlr n v
    · rw [hown n (.leaf r' v) e, hf.live r' e, hf.leaf r' e]
      exact h.leaf n r' v

theorem MemOk.free_congr (h : MemOk cfg owns s G) (hm : ∀ n, G.own n = .free → SamePage s.mem m' n)
    (hown : ∀ n, G'.own n = .free ↔ G.own n = .free) :
    FreeList m' s.freelist fun a => a % 4096 = 0 ∧ G'.own (a / 4096) = .free :=
  h.free.congr (fun _ ha => (hm _ ha.2).link ha.1) fun _ => and_congr Iff.rfl (hown _)

end Frame

/-! ## Allocation -/

theorem give_eq (G : Ghost H) (n n' : ℕ) (x : Own H) :
    (G.give n x).own n' = if n' = n then x else G.own n' := by
  unfold Ghost.give
  by_cases e : n' = n
  · subst e
    simp
  · simp [e]

theorem give_give (G : Ghost H) (n : ℕ) (y z : Own H) : (G.give n y).give n z = G.give n z := by
  unfold Ghost.give
  rw [update_idem]

theorem give_self (G : Ghost H) (n : ℕ) (z : Own H) : (G.give n z).own n = z :=
  update_self ..

theorem give_ne (G : Ghost H) (z : Own H) {n n' : ℕ} (e : n' ≠ n) :
    (G.give n z).own n' = G.own n' :=
  update_of_ne e _ _

theorem give_iff {y z o : Own H} (hk : G.own k = y) (hy : y ≠ o) (hz : z ≠ o) (n : ℕ) :
    (G.give k z).own n = o ↔ G.own n = o := by
  rw [give_eq]
  by_cases e : n = k
  · subst e
    rw [if_pos rfl]
    exact ⟨fun h => absurd h hz, fun h => absurd (hk.symm.trans h) hy⟩
  · rw [if_neg e]

/-- The page is neither part of a page table nor mapped. -/
def Own.Plain : Own H → Prop
  | .free | .held _ => True
  | _ => False

/-- A page goes from the free list to a holder, back, or to another holder. -/
theorem MemOk.give_plain (h : MemOk cfg owns s G) {z : Own H} (hx : (G.own n).Plain)
    (hz : z.Plain) (hm : ∀ n', n' ≠ n → SamePage s.mem s'.mem n')
    (hfree : FreeList s'.mem s'.freelist fun a => a % 4096 = 0 ∧ (G.give n z).own (a / 4096) = .free) :
    MemOk cfg owns s' (G.give n z) := by
  have hiff : ∀ n' (o : Own H), ¬ o.Plain → ((G.give n z).own n' = o ↔ G.own n' = o) := by
    intro n' o ho
    refine give_iff rfl ?_ ?_ n'
    · rintro rfl
      exact ho hx
    · rintro rfl
      exact ho hz
  have hnode : ∀ n' r l p, G.own n' = .node r l p → n' ≠ n := by
    rintro n' r l p hn' rfl
    rw [hn'] at hx
    exact hx
  refine ⟨fun n' => ?_, hfree, fun r hr => ?_, fun n' r l p hn' => ?_, fun n' r v => ?_⟩
  · rw [ne_eq, hiff n' .none id]
    exact h.managed n'
  · exact (h.tree r hr).congr (fun n' l p => hiff n' _ id)
      fun n' l p hn' => hm n' (hnode n' r l p hn')
  · exact h.node n' r l p ((hiff n' _ id).mp hn')
  · rw [hiff n' _ id]
    exact h.leaf n' r v

theorem MemOk.alloc (h : MemOk cfg owns s G) (h0 : s.freelist ≠ 0) (c : ℕ) :
    ∃ n, s.freelist = 4096 * n ∧ G.own n = .free ∧ ∀ x : H, MemOk cfg owns
      { mem := s.mem.fill s.freelist PGSIZE 5, freelist := s.mem.get s.freelist 8, calls := c }
      (G.give n (.held x)) := by
  obtain ⟨⟨ha, hf⟩, hpop⟩ := h.free.pop h0
  obtain ⟨n, hn⟩ : ∃ n, s.freelist = 4096 * n := ⟨s.freelist / 4096, by omega⟩
  rw [hn, show 4096 * n / 4096 = n by omega] at hf
  refine ⟨n, hn, hf, fun x => h.give_plain ?_ trivial ?_ ?_⟩
  · rw [hf]
    trivial
  · intro n' e
    show SamePage s.mem (s.mem.fill s.freelist 4096 5) n'
    rw [hn]
    exact samePage_fill e
  · refine hpop.congr (fun a hP => ?_) fun a => ?_
    · have e : a / 4096 ≠ n := by
        have := hP.2
        have := hP.1.1
        omega
      refine SamePage.link ?_ hP.1.1
      show SamePage s.mem (s.mem.fill s.freelist 4096 5) (a / 4096)
      rw [hn]
      exact samePage_fill e
    · rw [give_eq]
      by_cases e : a / 4096 = n
      · rw [if_pos e]
        refine ⟨fun hc => ?_, fun hc => ?_⟩
        · cases hc.2
        · have := hc.2
          have := hc.1.1
          omega
      · rw [if_neg e]
        refine ⟨fun hc => ⟨hc, ?_⟩, fun hc => hc.1⟩
        rintro rfl
        omega

/-- The state after `kfree` of page `n`. -/
def Phys.freed (s : Phys) (n : ℕ) : Phys :=
  { s with mem := (s.mem.fill (4096 * n) PGSIZE 1).set (4096 * n) 8 s.freelist,
           freelist := 4096 * n }

theorem freed_same (s : Phys) (e : k ≠ n) : SamePage s.mem (s.freed n).mem k := by
  have h1 : SamePage s.mem (s.mem.fill (4096 * n) 4096 1) k := samePage_fill e
  exact h1.trans (samePage_set (i := 0) e (by norm_num))

section

variable (h : MemOk cfg owns s G)
include h

theorem freed_link (n : ℕ) : (s.freed n).mem.get (4096 * n) 8 = s.freelist := by
  show ((s.mem.fill (4096 * n) PGSIZE 1).set (4096 * n) 8 s.freelist).get (4096 * n) 8 = _
  rw [Bytes.get_set_same]
  exact Nat.mod_eq_of_lt h.freelist_lt

theorem kfree_eq (hn : G.own n ≠ .none) : kfree cfg (4096 * n) s = .ok ((), s.freed n) := by
  obtain ⟨h1, h2⟩ := (h.managed n).mp hn
  unfold kfree
  rw [if_neg (by unfold PGSIZE; omega)]
  rfl

/-- The free list after `kfree` of a page that was not free, and after other writes that do not
touch free pages. -/
theorem MemOk.freed_list (hn : G.own n ≠ .none) (hf : G.own n ≠ .free)
    (hm : ∀ n', n' = n ∨ G.own n' = .free → SamePage (s.freed n).mem m' n') :
    FreeList m' (4096 * n) fun a => a % 4096 = 0 ∧ (G.give n .free).own (a / 4096) = .free := by
  have h0 := h.pos hn
  refine h.free.push (b := 4096 * n) ?_ (by omega) ?_ ?_ ?_
  · rintro ⟨-, hc⟩
    rw [show 4096 * n / 4096 = n by omega] at hc
    exact hf hc
  · rw [(hm n (.inl rfl)).get le_rfl (by omega)]
    exact freed_link h n
  · intro a ha
    have e : a / 4096 ≠ n := by
      rintro rfl
      exact hf ha.2
    exact ((freed_same s e).trans (hm _ (.inr ha.2))).link ha.1
  · intro a
    rw [give_eq]
    by_cases e : a / 4096 = n
    · rw [if_pos e]
      refine ⟨fun hc => .inl (by omega), fun hc => ⟨?_, rfl⟩⟩
      rcases hc with hc | hc
      · omega
      · exact hc.1
    · rw [if_neg e]
      refine ⟨.inr, fun hc => hc.resolve_left ?_⟩
      rintro rfl
      omega

theorem MemOk.free_held (hn : G.own n = .held x) : MemOk cfg owns (s.freed n) (G.give n .free) := by
  refine h.give_plain (by rw [hn]; trivial) trivial (fun n' e => freed_same s e) ?_
  exact h.freed_list (by rw [hn]; nofun) (by rw [hn]; nofun) fun n' _ => SamePage.refl _ _

theorem MemOk.data_held (hn : G.own n = .held x) (hm : ∀ n', n' ≠ n →
SamePage s.mem m' n') (c : ℕ) :
    MemOk cfg owns { s with mem := m', calls := c } G := by
  refine h.data (fun n' hn' => hm n' ?_) c
  rintro rfl
  rcases hn' with e | ⟨r, l, p, e⟩ <;> rw [hn] at e <;> cases e

end

/-! ## Page tables -/

section Tables

variable {D : Set ℕ} {z : Own H}

section

variable (hn : G.own n = .node r l p)
include hn

/-- No entry of the page table `r` is in a page that has nothing to do with it. -/
theorem samePage_set_apart (hi : i < 512) (hk : (G.own k).Apart r D) :
    SamePage m' (m'.set (4096 * n + 8 * i) 8 w) k := by
  refine samePage_set ?_ hi
  rintro rfl
  rw [hn] at hk
  exact hk rfl

theorem samePage_set_free (hi : i < 512) (hk : G.own k = .free) :
    SamePage m' (m'.set (4096 * n + 8 * i) 8 w) k := by
  refine samePage_set ?_ hi
  rintro rfl
  rw [hn] at hk
  cases hk

theorem Frame.give_entry (hi : i < 512) (hown : G'.own = update G.own k z)
    (hleaf : ∀ r', r' ≠ r → G'.leaf r' = G.leaf r')
    (hlive : ∀ r', r' ≠ r → (G'.live r' ↔ G.live r')) :
    Frame r D {k} s { s with mem := s.mem.set (4096 * n + 8 * i) 8 w } G G' :=
  Frame.of_give hown (fun hk => absurd rfl hk) (fun _ _ ha => samePage_set_apart hn hi ha) hleaf
    hlive

theorem Frame.free_entry (hi : i < 512) (hk : ¬ (G.own k).Apart r D)
    (hown : G'.own = update G.own k .free) (hleaf : ∀ r', r' ≠ r → G'.leaf r' = G.leaf r')
    (hlive : ∀ r', r' ≠ r → (G'.live r' ↔ G.live r')) :
    Frame r D ∅ s { s.freed k with mem := (s.freed k).mem.set (4096 * n + 8 * i) 8 w } G G' :=
  Frame.of_give hown (fun _ => ⟨hk, id⟩)
    (fun _ e ha => (freed_same s e).trans (samePage_set_apart hn hi ha)) hleaf hlive

end

theorem newRoot_leaf_self (G : Ghost H) (n : ℕ) : (G.newRoot n).leaf n = fun _ => 0 :=
  update_self ..

theorem newRoot_leaf_ne (G : Ghost H) {n r : ℕ} (e : r ≠ n) :
    (G.newRoot n).leaf r = G.leaf r := update_of_ne e _ _

theorem Frame.new_root : Frame n D {n} s s G (G.newRoot n) := by
  refine Frame.of_give rfl (fun hx => absurd rfl hx) (fun _ _ _ => SamePage.refl _ _) ?_ ?_
  · intro r' e
    exact newRoot_leaf_ne G e
  · intro r' e
    exact or_iff_right e

theorem MemOk.new_root (h : MemOk cfg owns s G) (hn : G.own n = .held x)
    (hz : ∀ j < 512, entry s.mem n j = 0) : MemOk cfg owns s (G.newRoot n) := by
  have hdead : ¬ G.live n := by
    intro hl
    have := (h.tree n hl).root
    rw [hn] at this
    cases this
  have hleaf0 := newRoot_leaf_self G n
  refine h.change (Frame.new_root (D := ∅)) ?_ ?_ ?_ ?_ ?_
  · rintro n' rfl
    refine ⟨by rw [hn]; exact id, ?_⟩
    show ¬ ((G.give n' _).own n').Other n'
    rw [give_self]
    exact fun hc => hc rfl
  · exact h.free_congr (fun _ _ => SamePage.refl _ _) (give_iff hn (by nofun) (by nofun))
  · intro _
    refine Tree.new (give_self G n _) (fun n' l p e => ?_) hz (fun v => congrFun hleaf0 v)
    by_contra hne
    have e' : (G.give n (.node n 2 0)).own n' = .node n l p := e
    rw [give_ne _ _ hne] at e'
    exact hdead (h.node n' n l p e')
  · intro n' l p _
    exact .inl rfl
  · intro n' v
    have hleaf : (G.newRoot n).own n' = .leaf n v ↔ G.own n' = .leaf n v :=
      give_iff hn (by nofun) (by nofun) n'
    refine ⟨fun hc => ?_, fun hc => ?_⟩
    · exact absurd ((h.leaf n' n v).mp (hleaf.mp hc)).1 hdead
    · exact absurd (congrFun hleaf0 v) hc.2.2.1

section

variable (h : MemOk cfg owns s G) (hn : G.own n = .node r (l + 1) p) (hi : i < 512)
  (hz : ∀ j < 512, entry s.mem k j = 0)
include h hn hi hz

theorem MemOk.link (h0 : entry s.mem n i = 0) (hk : G.own k = .held x) :
    MemOk cfg owns { s with mem := s.mem.set (4096 * n + 8 * i) 8 (1024 * k + 1) }
      (G.give k (.node r l (512 * p + i))) := by
  have hkn : k ≠ n := by
    rintro rfl
    rw [hk] at hn
    cases hn
  have hlt : 1024 * k + 1 < 2 ^ 64 := by
    have := h.lt (n := k) (by rw [hk]; nofun)
    unfold PHYSTOP KERNBASE at this
    omega
  have hf : Frame r ∅ {k} s { s with mem := s.mem.set (4096 * n + 8 * i) 8 (1024 * k + 1) } G
      (G.give k (.node r l (512 * p + i))) :=
    Frame.give_entry hn hi rfl (fun _ _ => rfl) fun _ _ => Iff.rfl
  refine h.change hf ?_ ?_ ?_ ?_ ?_
  · rintro n' rfl
    refine ⟨by rw [hk]; exact id, ?_⟩
    rw [give_self]
    exact fun hc => hc rfl
  · exact h.free_congr (fun n' hn' => samePage_set_free hn hi hn')
      (give_iff hk (by nofun) (by nofun))
  · intro hl
    refine (h.tree r hl).link hn hi h0 (fun l' p' e => ?_) (fun j hj => ?_) ?_ ?_ ?_
    · rw [hk] at e
      cases e
    · rw [(samePage_set hkn hi).entry hj]
      exact hz j hj
    · intro n' _ _ _ e
      exact samePage_set e hi
    · intro j _ e
      exact entry_set_ne e
    · exact entry_set_same hlt
  · intro _ _ _ _
    exact h.node n r _ _ hn
  · intro n' v
    rw [give_iff hk (by nofun) (by nofun) n']
    exact h.leaf n' r v

theorem MemOk.unlink (hk : G.own k = .node r l (512 * p + i)) :
    MemOk cfg owns { s.freed k with mem := (s.freed k).mem.set (4096 * n + 8 * i) 8 0 }
      (G.give k .free) := by
  have hkn : k ≠ n := by
    rintro rfl
    rw [hk, Own.node.injEq] at hn
    omega
  have hf : Frame r ∅ ∅ s { s.freed k with mem := (s.freed k).mem.set (4096 * n + 8 * i) 8 0 } G
      (G.give k .free) :=
    Frame.free_entry hn hi (by rw [hk]; exact fun hc => hc rfl) rfl (fun _ _ => rfl)
      fun _ _ => Iff.rfl
  refine h.change hf (by simp) ?_ ?_ ?_ ?_
  · refine h.freed_list (by rw [hk]; nofun) (by rw [hk]; nofun) fun n' hn' => ?_
    rcases hn' with rfl | e
    · exact samePage_set hkn hi
    · exact samePage_set_free hn hi e
  · intro hl
    refine (h.tree r hl).unlink hn hi hk hz (fun n' l' p' => ?_) ?_ ?_ ?_
    · rw [give_eq]
      by_cases e : n' = k
      · simp [e]
      · simp [e]
    · intro n' _ _ _ e e'
      exact (freed_same s e').trans (samePage_set e hi)
    · intro j hj e
      show entry ((s.freed k).mem.set _ 8 0) n j = _
      rw [entry_set_ne e, (freed_same s hkn.symm).entry hj]
    · exact entry_set_same (by norm_num)
  · intro _ _ _ _
    exact h.node n r _ _ hn
  · intro n' v
    rw [give_iff hk (by nofun) (by nofun) n']
    exact h.leaf n' r v

end

theorem Frame.drop_root (hroot : G.own r = .node r 2 0) :
    Frame r D ∅ s (s.freed r) G (G.dropRoot r) := by
  refine Frame.of_give rfl (fun _ => ⟨?_, id⟩) (fun n e _ => freed_same s e) (fun _ _ => rfl) ?_
  · rw [hroot]
    exact fun hc => hc rfl
  · intro r' e
    exact and_iff_right e

theorem MemOk.drop_root (h : MemOk cfg owns s G) (hr : G.live r) (hL : ∀ v, G.leaf r v = 0)
    (hz : ∀ j < 512, entry s.mem r j = 0) : MemOk cfg owns (s.freed r) (G.dropRoot r) := by
  have ht := h.tree r hr
  have hroot := ht.root
  have hnone : ∀ n l p, (G.give r .free).own n ≠ .node r l p := by
    intro n l p hn
    rw [give_eq] at hn
    by_cases e : n = r
    · rw [if_pos e] at hn
      cases hn
    · rw [if_neg e] at hn
      exact e (ht.eq_root hz hn)
  refine h.change (Frame.drop_root (D := ∅) hroot) (by simp) ?_ ?_ ?_ ?_
  · exact h.freed_list (by rw [hroot]; nofun) (by rw [hroot]; nofun) fun _ _ => SamePage.refl _ _
  · intro hc
    exact absurd rfl hc.1
  · intro n l p hn
    exact absurd hn (hnone n l p)
  · intro n v
    have hleaf : (G.give r .free).own n = .leaf r v ↔ G.own n = .leaf r v :=
      give_iff hroot (by nofun) (by nofun) n
    refine ⟨fun hc => ?_, fun hc => absurd rfl hc.1.1⟩
    exact absurd (hL v) ((h.leaf n r v).mp (hleaf.mp hc)).2.2.1

end Tables

/-! ## Mappings -/

section Mappings

variable {D : Set ℕ}

theorem setLeaf_eq (G : Ghost H) (r v w v' : ℕ) :
    (G.setLeaf r v w).leaf r v' = if v' = v then w else G.leaf r v' := by
  unfold Ghost.setLeaf
  by_cases e : v' = v
  · subst e
    simp
  · simp [e]

theorem setLeaf_ne (G : Ghost H) (v w : ℕ) {r r' : ℕ} (e : r' ≠ r) :
    (G.setLeaf r v w).leaf r' = G.leaf r' := update_of_ne e _ _

section Entry

variable (hn : G.own n = .node r 0 p) (hi : i < 512)
include hn hi

/-- The tree after an entry was written, and other pages outside of the tree. -/
theorem MemOk.tree_set (h : MemOk cfg owns s G)
    (hm : ∀ n' l p, G.own n' = .node r l p → SamePage s.mem m' n') (hw : w = 0 ∨ w % 2 = 1)
    (hw' : w < 2 ^ 64) :
    Tree (m'.set (4096 * n + 8 * i) 8 w) G.own r ((G.setLeaf r (512 * p + i) w).leaf r) := by
  have e : (G.setLeaf r (512 * p + i) w).leaf r =
      update (G.leaf r) (512 * p + i) w := update_self ..
  rw [e]
  refine (h.tree r (h.node n r 0 p hn)).set_leaf hn hi ?_ ?_ (entry_set_same hw') hw
  · intro n' l' p' hn' hne
    exact (hm n' l' p' hn').trans (samePage_set hne hi)
  · intro j hj e
    rw [entry_set_ne e, (hm n 0 p hn).entry hj]

theorem Frame.set_entry (v : ℕ) :
    Frame r D ∅ s { s with mem := s.mem.set (4096 * n + 8 * i) 8 w } G (G.setLeaf r v w) :=
  Frame.of_own rfl (fun _ ha => samePage_set_apart hn hi ha) (fun _ e => setLeaf_ne _ _ _ e)
    fun _ _ => Iff.rfl

/-- An entry is written that does not change who owns the page: its flags change, or it is one
that does not own. -/
theorem MemOk.set_entry (h : MemOk cfg owns s G) (hw : w = 0 ∨ w % 2 = 1) (hw' : w < 2 ^ 64)
    (hown : owns r (512 * p + i) → w ≠ 0 ∧ G.leaf r (512 * p + i) ≠ 0 ∧
      w / 1024 = G.leaf r (512 * p + i) / 1024) :
    MemOk cfg owns { s with mem := s.mem.set (4096 * n + 8 * i) 8 w }
      (G.setLeaf r (512 * p + i) w) := by
  refine h.change (Frame.set_entry (D := ∅) hn hi (512 * p + i)) (by simp) ?_ ?_ ?_ ?_
  · exact h.free_congr (fun n' hn' => samePage_set_free hn hi hn') fun _ => Iff.rfl
  · intro _
    exact h.tree_set hn hi (fun _ _ _ _ => SamePage.refl _ _) hw hw'
  · intro n' l' p' hn'
    exact h.node n' r l' p' hn'
  · intro n' v
    rw [setLeaf_eq]
    show G.own n' = .leaf r v ↔ G.live r ∧ _
    rw [h.leaf n' r v]
    by_cases e : v = 512 * p + i
    · subst e
      rw [if_pos rfl]
      refine and_congr_right fun _ => and_congr_right fun ho => ?_
      obtain ⟨h1, h2, h3⟩ := hown ho
      simp [h1, h2, h3]
    · rw [if_neg e]

theorem Frame.map_page (k v : ℕ) :
    Frame r D {k} s { s with mem := s.mem.set (4096 * n + 8 * i) 8 w } G
      ((G.give k (.leaf r v)).setLeaf r v w) :=
  Frame.give_entry hn hi rfl (fun _ e => setLeaf_ne _ _ _ e) fun _ _ => Iff.rfl

theorem MemOk.map_page (h : MemOk cfg owns s G) (hown : owns r (512 * p + i))
    (h0 : G.leaf r (512 * p + i) = 0) (hk : G.own k = .held x) (hw : w % 2 = 1) (hwk : w / 1024 = k) :
    MemOk cfg owns { s with mem := s.mem.set (4096 * n + 8 * i) 8 w }
      ((G.give k (.leaf r (512 * p + i))).setLeaf r (512 * p + i) w) := by
  have hlive := h.node n r 0 p hn
  have hlt : w < 2 ^ 64 := by
    have := h.lt (n := k) (by rw [hk]; nofun)
    unfold PHYSTOP KERNBASE at this
    omega
  refine h.change (Frame.map_page (D := ∅) hn hi k (512 * p + i)) ?_ ?_ ?_ ?_ ?_
  · rintro n' rfl
    refine ⟨by rw [hk]; exact id, ?_⟩
    show ¬ ((G.give n' _).own n').Other r
    rw [give_self]
    exact fun hc => hc rfl
  · exact h.free_congr (fun n' hn' => samePage_set_free hn hi hn')
      (give_iff hk (by nofun) (by nofun))
  · intro _
    refine (h.tree_set hn hi (fun _ _ _ _ => SamePage.refl _ _) (.inr hw) hlt).congr ?_
      fun _ _ _ _ => SamePage.refl _ _
    intro n' l' p'
    exact give_iff hk (by nofun) (by nofun) n'
  · intro _ _ _ _
    exact hlive
  · intro n' v
    rw [setLeaf_eq]
    show (G.give k _).own n' = .leaf r v ↔ G.live r ∧ _
    by_cases e : v = 512 * p + i
    · subst e
      rw [if_pos rfl, give_eq]
      by_cases en : n' = k
      · subst en
        rw [if_pos rfl]
        refine ⟨fun _ => ⟨hlive, hown, by omega, hwk⟩, fun _ => rfl⟩
      · rw [if_neg en]
        refine ⟨fun hc => ?_, fun hc => absurd (hwk ▸ hc.2.2.2.symm) en⟩
        exact absurd h0 ((h.leaf n' r _).mp hc).2.2.1
    · rw [if_neg e]
      refine (give_iff hk (by nofun) ?_ n').trans (h.leaf n' r v)
      rw [ne_eq, Own.leaf.injEq]
      exact fun hc => e hc.2.symm

theorem Frame.unmap_page (hk : G.own k = .leaf r v)
    (hv : v ∈ D) :
    Frame r D ∅ s { s.freed k with mem := (s.freed k).mem.set (4096 * n + 8 * i) 8 0 } G
      ((G.give k .free).setLeaf r v 0) :=
  Frame.free_entry hn hi (by rw [hk]; exact fun hc => hc rfl hv) rfl
    (fun _ e => setLeaf_ne _ _ _ e) fun _ _ => Iff.rfl

theorem MemOk.unmap_page (h : MemOk cfg owns s G) (hk : G.own k = .leaf r (512 * p + i)) :
    MemOk cfg owns { s.freed k with mem := (s.freed k).mem.set (4096 * n + 8 * i) 8 0 }
      ((G.give k .free).setLeaf r (512 * p + i) 0) := by
  have hlive := h.node n r 0 p hn
  have hnk : ∀ n' l' p', G.own n' = .node r l' p' → n' ≠ k := by
    rintro n' l' p' hn' rfl
    rw [hk] at hn'
    cases hn'
  refine h.change (Frame.unmap_page hn hi hk (Set.mem_univ _)) (by simp) ?_ ?_ ?_ ?_
  · refine h.freed_list (by rw [hk]; nofun) (by rw [hk]; nofun) fun n' hn' => ?_
    rcases hn' with rfl | e
    · exact samePage_set (hnk n _ _ hn).symm hi
    · exact samePage_set_free hn hi e
  · intro _
    refine (h.tree_set hn hi (fun n' l' p' hn' => freed_same s (hnk n' l' p' hn')) (.inl rfl)
      (by norm_num)).congr ?_ fun _ _ _ _ => SamePage.refl _ _
    intro n' l' p'
    exact give_iff hk (by nofun) (by nofun) n'
  · intro _ _ _ _
    exact hlive
  · intro n' v
    rw [setLeaf_eq]
    show (G.give k .free).own n' = .leaf r v ↔ G.live r ∧ _
    by_cases e : v = 512 * p + i
    · subst e
      rw [if_pos rfl]
      refine ⟨fun hc => ?_, fun hc => absurd rfl hc.2.2.1⟩
      rw [give_eq] at hc
      by_cases en : n' = k
      · rw [if_pos en] at hc
        cases hc
      · rw [if_neg en] at hc
        have h1 := ((h.leaf n' r _).mp hc).2.2.2
        have h2 := ((h.leaf k r _).mp hk).2.2.2
        exact absurd (h1.symm.trans h2) en
    · rw [if_neg e]
      refine (give_iff hk ?_ (by nofun) n').trans (h.leaf n' r v)
      rw [ne_eq, Own.leaf.injEq]
      exact fun hc => e hc.2.symm

end Entry

end Mappings

end TatakOS.Mem
