import TatakOS.Mem.Grow

/-!
# `sbrk`

A process has the memory below `brk`; `sbrk` moves it as `growproc` does (`growproc_sbrk`).
-/

namespace TatakOS.User

open ProcTable (Slot)

/-! ## The code -/

/-- `union header`. -/
structure Header where
  ptr : ℕ
  size : ℕ

structure Heap where
  hdr : ℕ → Header
  freep : ℕ
  /-- `p->sz`. -/
  brk : ℕ
  /-- Whether the next requests find enough free pages. -/
  grants : List Bool

/-- There are fewer than 32768 pages of memory. -/
def maxSize : ℕ := 4096 * 32767

/-- `sys_sbrk`, with what `growproc` does to the size: `sz + n` is a `uint`. -/
def sbrk (n : ℤ) (h : Heap) : ℤ × Heap :=
  let newsz := ((h.brk + n) % 2 ^ 32).toNat
  if 0 < n then
    if h.grants.head? = some true ∧ newsz ≤ maxSize then
      (h.brk, { h with brk := max h.brk newsz, grants := h.grants.tail })
    else (-1, { h with grants := h.grants.tail })
  else (h.brk, { h with brk := min h.brk newsz })

/-! ## The kernel -/

section Kernel

open Mem

variable {H : Type} {cfg : Config} {owns : ℕ → ℕ → Prop} {s : State} {G : Ghost H} {p : Slot}
  {r : ℕ} {n : ℤ}

/-- `sbrk` is what the kernel does, whichever pages are free. -/
theorem growproc_sbrk [Inhabited H] (h : MemOk cfg owns s.phys G)
    (hpt : (s.proc p).pagetable = some (4096 * r)) (hu : ∀ v, owns r v ↔ v < top)
    (hp : UserPt G r (pages (s.proc p).sz)) (hn : -2 ^ 31 ≤ n ∧ n < 2 ^ 31) (x : Heap) :
    ∃ g res s', growproc cfg p n s = .ok (res, s') ∧
      sbrk n { x with brk := (s.proc p).sz, grants := [g] } =
        (if res then ((s.proc p).sz : ℤ) else -1,
          { x with brk := (s'.proc p).sz, grants := if 0 < n then [] else [g] }) := by
  have hsz := hp.size_le h hu
  by_cases hpos : 0 < n
  · obtain ⟨res, s', e, hres⟩ := growproc_pos h hu hpt hp hpos hn.2
    refine ⟨res, res, s', e, ?_⟩
    cases res with
    | true =>
      obtain ⟨hgrew, hle⟩ : Grew cfg p r n s s' ∧ _ := hres
      have := hgrew.size
      have hnew : (((s.proc p).sz + n) % 2 ^ 32).toNat = (s'.proc p).sz := by omega
      unfold sbrk
      simp only [if_pos hpos, hnew]
      rw [if_pos ⟨rfl, hle⟩, max_eq_right (by omega)]
      rfl
    | false =>
      have hsame : Unchanged cfg owns G r s s' := hres
      unfold sbrk
      rw [if_pos hpos, if_neg (by simp), hsame.proc, if_pos hpos]
      rfl
  · obtain ⟨s', e, hs'⟩ := growproc_nonpos h hu hpt hp (not_lt.mp hpos) hn.1
    refine ⟨true, true, s', e, ?_⟩
    have hmin : min (s.proc p).sz (((s.proc p).sz + n) % 2 ^ 32).toNat = (s'.proc p).sz := by
      split_ifs at hs' with hge
      · have := hs'.size
        omega
      · omega
    unfold sbrk
    simp only [if_neg hpos, hmin]
    rfl

/-- A process of one byte asks for a page more. -/
theorem growproc_sbrk_page : ∃ s',
    growproc smallConfig initproc 4096 (smallState 1) = .ok (true, s') ∧
    sbrk 4096 ⟨fun _ => ⟨0, 0⟩, 0, 1, [true]⟩ =
      (1, ⟨fun _ => ⟨0, 0⟩, 0, (s'.proc initproc).sz, []⟩) ∧ (s'.proc initproc).sz = 4097 := by
  obtain ⟨g, res, s', e, hsbrk⟩ := growproc_sbrk (s := smallState 1) (p := initproc) (n := 4096)
    small_memOk rfl (fun _ => Iff.rfl) small_userPt (by decide) ⟨fun _ => ⟨0, 0⟩, 0, 0, []⟩
  have heval : (growproc smallConfig initproc 4096 (smallState 1)).toOption.map Prod.fst =
      some true := by decide +kernel
  rw [e] at heval
  obtain rfl : res = true := Option.some.inj heval
  cases g with
  | false => cases congrArg Prod.fst hsbrk
  | true => exact ⟨s', e, hsbrk, (congrArg (fun r => r.2.brk) hsbrk).symm⟩

end Kernel

end TatakOS.User
