import TatakOS.Mem.Copy
import TatakOS.Mem.Kernel

/-!
# `growproc`

What `sbrk` reports against what it does. Growing and shrinking inside the address space work as
reported, also when memory runs out. A request for a negative size is granted without effect, since
`sz + n` is computed as a `uint`.
-/

namespace TatakOS.Mem

open ProcTable (Slot)
open Function

variable {H : Type} {cfg : Config} {owns : ℕ → ℕ → Prop} {s s' : State} {G : Ghost H}
  {p : Slot} {r : ℕ} {n : ℤ} {α : Type}

/-- The page table `r` maps exactly the pages of a process of size `sz`. -/
def MapsUser (cfg : Config) (s : State) (r sz : ℕ) : Prop :=
  ∀ va < TRAPFRAME, pte cfg s.phys (4096 * r) va &&& PTE_V ≠ 0 ↔ va < PGROUNDUP sz

/-- What `growproc(n)` of a process `p` with the page table `r` reports when it returns 0 and when
it returns -1. The account `G` is that of the memory before. -/
structure Grew (cfg : Config) (p : Slot) (r : ℕ) (n : ℤ) (s s' : State) : Prop where
  size : ((s'.proc p).sz : ℤ) = (s.proc p).sz + n
  maps : MapsUser cfg s' r (s'.proc p).sz
  kept : ∀ va < min (s.proc p).sz (s'.proc p).sz,
    byteAt cfg s'.phys (4096 * r) va = byteAt cfg s.phys (4096 * r) va
  zero : ∀ va, PGROUNDUP (s.proc p).sz ≤ va → va < PGROUNDUP (s'.proc p).sz →
    byteAt cfg s'.phys (4096 * r) va = 0

structure Unchanged (cfg : Config) (owns : ℕ → ℕ → Prop) (G : Ghost H) (r : ℕ) (s s' : State) :
    Prop where
  proc : s'.proc = s.proc
  entries : ∀ r', G.live r' → ∀ va < MAXVA,
    pte cfg s'.phys (4096 * r') va = pte cfg s.phys (4096 * r') va
  bytes : ∀ r', G.live r' → ∀ va < MAXVA, owns r' (va / 4096) → pte cfg s.phys (4096 * r') va ≠ 0 →
      byteAt cfg s'.phys (4096 * r') va = byteAt cfg s.phys (4096 * r') va
  free : ∃ G' : Ghost H, MemOk cfg owns s'.phys G' ∧
    ∀ k, G.own k = .free → G'.own k = .free ∨ ∃ l q, G'.own k = .node r l q

/-- `growproc` ends, and does what it reports. -/
def GrowsAsReported (cfg : Config) (owns : ℕ → ℕ → Prop) (G : Ghost H) (p : Slot) (r : ℕ) (n : ℤ)
    (s : State) : Prop :=
  ∃ res s', growproc cfg p n s = .ok (res, s') ∧
    if res then Grew cfg p r n s s' else Unchanged cfg owns G r s s'

theorem UserPt.clear {a b : ℕ} {G' : Ghost H} (hp : UserPt G r b) (hlive : G'.live r)
    (hL : G'.leaf r = clear (G.leaf r) a b) (hab : a ≤ b) : UserPt G' r a := by
  refine ⟨hlive, fun v hv => ?_, fun v hv htop => ?_⟩
  · rw [hL, Mem.clear, if_neg (by omega)]
    exact hp.mapped v (by omega)
  · rw [hL, Mem.clear]
    split_ifs with hin
    · rfl
    · exact hp.empty v (by omega) htop

section

variable (h : MemOk cfg owns s.phys G) (hu : ∀ v, owns r v ↔ v < top)
include h hu

theorem UserPt.mapsUser {sz : ℕ} (hp : UserPt G r (pages sz)) : MapsUser cfg s r sz := by
  have hN := hp.lt h hu
  have hround : PGROUNDUP sz = 4096 * pages sz := by
    refine pgroundup_eq ?_
    unfold pages top at hN
    omega
  intro va hva
  obtain ⟨hmax, hv⟩ := lt_maxva_of_lt_trapframe hva
  rw [h.pte_eq hp.live hmax, (h.tree r hp.live).valid_iff, hround]
  constructor
  · intro hne
    by_contra hge
    exact hne (hp.empty _ (by omega) hv)
  · intro hlt
    exact (hp.ne_zero (by omega)).1

theorem UserPt.size_le {sz : ℕ} (hp : UserPt G r (pages sz)) : sz ≤ 4096 * 32767 := by
  have := hp.le h hu
  unfold pages at this
  omega

/-- The user memory has the new size, and it is only changed behind the smaller of the sizes. -/
theorem Grew.of_frame {G' : Ghost H} (h' : MemOk cfg owns s'.phys G')
    (hp : UserPt G r (pages (s.proc p).sz))
    (hp' : UserPt G' r (pages (s'.proc p).sz)) (hsz : ((s'.proc p).sz : ℤ) = (s.proc p).sz + n)
    (hframe : Frame r (Set.Ici (pages (min (s.proc p).sz (s'.proc p).sz))) ∅ s.phys s'.phys G G')
    (hzero : ∀ v, pages (s.proc p).sz ≤ v → v < pages (s'.proc p).sz →
      ZeroPage s'.phys.mem (G'.leaf r v / 1024)) : Grew cfg p r n s s' := by
  have hle := hp.size_le h hu
  have hle' := hp'.size_le h' hu
  have hpage : ∀ sz va, sz ≤ 4096 * 32767 → va < 4096 * pages sz → va < MAXVA ∧ va / 4096 < top := by
    intro sz va hsz hva
    apply lt_maxva_of_lt_trapframe
    rw [trapframe_eq]
    unfold pages top at *
    omega
  refine ⟨hsz, hp'.mapsUser h' hu, fun va hva => ?_, fun va h1 h2 => ?_⟩
  · have hlt : va / 4096 < pages (min (s.proc p).sz (s'.proc p).sz) := by
      unfold pages
      omega
    have hlt' : va / 4096 < pages (s.proc p).sz := by
      unfold pages
      omega
    obtain ⟨hmax, hv⟩ := hpage _ va hle (by omega)
    refine hframe.byteAt_eq h h' hp.live hp'.live hmax ((hu _).mpr hv) (hp.ne_zero hlt').1 ?_
    intro _ hmem
    exact absurd hlt (not_lt.mpr hmem)
  · rw [pgroundup_eq (by omega)] at h1 h2
    rw [h'.byteAt_eq hp'.live (hpage _ va hle' h2).1]
    exact hzero (va / 4096) (by omega) (by omega) _ (by omega)

variable (hpt : (s.proc p).pagetable = some (4096 * r)) (hp : UserPt G r (pages (s.proc p).sz))
include hpt hp

/-- Growing: `uvmalloc` gets sizes far below `2 ^ 32`. -/
theorem growproc_pos [Inhabited H] (hn : 0 < n) (hn' : n < 2 ^ 31) :
    ∃ res s', growproc cfg p n s = .ok (res, s') ∧ if res then
      Grew cfg p r n s s' ∧ (s'.proc p).sz ≤ 4096 * 32767 else Unchanged cfg owns G r s s' := by
  have hsz := hp.size_le h hu
  have hold : (s.proc p).sz % 2 ^ 32 = (s.proc p).sz := by omega
  have hnew : (((s.proc p).sz + n) % 2 ^ 32).toNat = (s.proc p).sz + n.toNat := by omega
  apply Spec.exists_ok
  unfold growproc
  simp only [spec_bind, spec_get, hpt, spec_deref_some, hold, hnew, if_pos hn]
  rw [spec_vm]
  refine (uvmalloc_spec default h hu hp).imp ?_
  rintro res ph ⟨L, ⟨G', h', hlive, hframe, hL⟩, ⟨rfl, hg⟩ | ⟨rfl, rfl⟩⟩
  · rw [max_eq_right (by omega)] at hg ⊢
    rw [Nat.mod_eq_of_lt (by omega), if_neg (by omega)]
    simp only [spec_bind, spec_setProc, spec_pure, if_true]
    have hp' : UserPt G' r (pages ((s.proc p).sz + n.toNat)) := by
      refine hp.grown ((hlive r).mpr hp.live) hL hg (by unfold pages; omega) fun u w _ hw => ?_
      have := hw.1
      omega
    have hle := hp'.size_le (s := { s with phys := ph }) h' hu
    refine ⟨?_, by rwa [update_self]⟩
    apply Grew.of_frame h hu h' hp
    all_goals simp only [update_self]
    · exact hp'
    · omega
    · rwa [min_eq_left (by omega)]
    · intro v h1 h2
      rw [hL]
      exact (hg.1 v h1 h2).2
  · rw [Nat.zero_mod, if_pos rfl, spec_pure]
    have hp' : UserPt G' r (pages (s.proc p).sz) := hp.of_leaf hlive hL
    have hleaf : ∀ r', G'.leaf r' = G.leaf r' := by
      intro r'
      by_cases e : r' = r
      · rw [e, hL]
      · exact hframe.leaf r' e
    refine ⟨rfl, fun r' hr' va hva => ?_, fun r' hr' va hva ho hne => ?_, G', h', fun k hk => ?_⟩
    · rw [h'.pte_eq ((hlive r').mpr hr') hva, h.pte_eq hr' hva, hleaf]
    · rw [h.pte_eq hr' hva] at hne
      refine hframe.byteAt_eq h h' hr' ((hlive r').mpr hr') hva ho hne ?_
      rintro rfl hmem
      exact hne (hp.empty _ hmem ((hu _).mp ho))
    · exact hframe.free_or_node h' hu hp' (fun v hv => hv) hk

/-- Shrinking: a negative size is taken for a large one, and nothing is done. -/
theorem growproc_nonpos (hn : n ≤ 0) (hn' : -2 ^ 31 ≤ n) :
    ∃ s', growproc cfg p n s = .ok (true, s') ∧
      if 0 ≤ (s.proc p).sz + n then Grew cfg p r n s s' else (s'.proc p).sz = (s.proc p).sz := by
  have hsz := hp.size_le h hu
  have hold : (s.proc p).sz % 2 ^ 32 = (s.proc p).sz := by omega
  have hspec : Spec (growproc cfg p n) s (fun res s' => res = true ∧
      if 0 ≤ (s.proc p).sz + n then Grew cfg p r n s s' else (s'.proc p).sz = (s.proc p).sz)
      Never := by
    unfold growproc
    simp only [spec_bind, spec_get, hpt, spec_deref_some, hold, if_neg (not_lt.mpr hn)]
    by_cases hneg : n < 0
    · rw [if_pos hneg, spec_bind, spec_vm]
      refine (uvmdealloc_spec h hu hp).imp ?_
      rintro res ph ⟨rfl, G', h', hlive, hframe, hL⟩
      simp only [spec_bind, spec_setProc, spec_pure, true_and]
      split_ifs with hge
      · have hmin : min (s.proc p).sz (((s.proc p).sz + n) % 2 ^ 32).toNat =
            ((s.proc p).sz + n).toNat := by omega
        rw [hmin] at hframe hL ⊢
        rw [Nat.mod_eq_of_lt (by omega)]
        have hp' := hp.clear ((hlive r).mpr hp.live) hL (by unfold pages; omega)
        apply Grew.of_frame h hu h' hp
        all_goals simp only [update_self]
        · exact hp'
        · omega
        · rwa [min_eq_right (by omega)]
        · intro v h1 h2
          unfold pages at h1 h2
          omega
      · rw [update_self]
        dsimp only
        omega
    · obtain rfl : n = 0 := by omega
      rw [if_neg hneg]
      simp only [spec_bind, spec_setProc, spec_pure, true_and]
      rw [if_pos (by omega)]
      refine Grew.of_frame h hu (show MemOk cfg owns (State.phys _) G from h) hp ?_ ?_ ?_ ?_
      all_goals simp only [update_self]
      · exact hp
      · omega
      · exact Frame.refl _ _ _ _ _
      · intro v h1 h2
        omega
  obtain ⟨_, s', e, rfl, hs'⟩ := hspec.exists_ok
  exact ⟨s', e, hs'⟩

end

/-- `growproc` does what it reports exactly if the new size is not negative. -/
theorem growproc_reported_iff [Inhabited H] (h : MemOk cfg owns s.phys G)
    (hpt : (s.proc p).pagetable = some (4096 * r)) (hu : ∀ v, owns r v ↔ v < top)
    (hp : UserPt G r (pages (s.proc p).sz)) (hn : -2 ^ 31 ≤ n ∧ n < 2 ^ 31) :
    GrowsAsReported cfg owns G p r n s ↔ 0 ≤ (s.proc p).sz + n := by
  by_cases hpos : 0 < n
  · refine ⟨fun _ => by omega, fun _ => ?_⟩
    obtain ⟨res, s', e, hres⟩ := growproc_pos h hu hpt hp hpos hn.2
    refine ⟨res, s', e, ?_⟩
    split_ifs at hres ⊢
    · exact hres.1
    · exact hres
  · obtain ⟨s', e, hs'⟩ := growproc_nonpos h hu hpt hp (not_lt.mp hpos) hn.1
    constructor
    · rintro ⟨res, s2, e2, hres⟩
      by_contra hneg
      rw [e] at e2
      cases e2
      rw [if_neg hneg] at hs'
      have hgrew : Grew cfg p r n s s' := hres
      have := hgrew.size
      omega
    · intro hge
      rw [if_pos hge] at hs'
      exact ⟨true, s', e, hs'⟩

/-- All processes use the page table in `firstPage`. -/
def smallState (sz : ℕ) : State where
  phys := smallPhys
  kernelPagetable := 0
  proc _ := { sz := sz, pagetable := some (4096 * firstPage) }

/-- A process of one byte that asks for a page more. -/
theorem growproc_reported_page : ∃ s', growproc smallConfig initproc 4096 (smallState 1) =
      .ok (true, s') ∧ Grew smallConfig initproc firstPage 4096 (smallState 1) s' := by
  obtain ⟨res, s', e, hres⟩ := (growproc_reported_iff (s := smallState 1) (p := initproc) (n := 4096)
    small_memOk rfl (fun _ => Iff.rfl) small_userPt (by decide)).mpr (by decide)
  have heval : (growproc smallConfig initproc 4096 (smallState 1)).toOption.map Prod.fst =
      some true := by decide +kernel
  rw [e] at heval
  obtain rfl : res = true := Option.some.inj heval
  exact ⟨s', e, hres⟩

/-- A process of one byte gives two bytes back. -/
theorem growproc_negative : ¬ GrowsAsReported smallConfig (fun _ v => v < top) smallGhost initproc
    firstPage (-2) (smallState 1) := by
  rintro ⟨res, s', e, hres⟩
  obtain ⟨s1, e1, hsz⟩ := growproc_nonpos (s := smallState 1) (p := initproc) (n := -2) small_memOk
    (fun _ => Iff.rfl) rfl small_userPt (by decide) (by decide)
  rw [e1] at e
  cases e
  have hgrew : Grew smallConfig initproc firstPage (-2) (smallState 1) s' := hres
  have hsize : ((s'.proc initproc).sz : ℤ) = 1 + -2 := hgrew.size
  omega

end TatakOS.Mem
