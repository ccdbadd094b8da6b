import TatakOS.Mem.Program

/-!
# The arguments of a new program

What a program finds on its stack after `exec`: an array of pointers to its arguments, and the
arguments themselves, as it would read them.
-/

namespace TatakOS.Mem

open ProcTable (Slot)

/-! ## Words -/

theorem field_wordBytes {w : ℕ} (h : w < 2 ^ 64) : field (wordBytes w) 0 8 = w := by
  have hset : field (wordBytes w) 0 8 = Bytes.get (Bytes.set (fun _ => 0) 0 8 w) 0 8 := by
    refine Bytes.get_congr fun i _ hi => ?_
    unfold wordBytes Bytes.set
    rw [if_pos ⟨Nat.zero_le i, hi⟩, List.getD_eq_getElem?_getD, List.getElem?_map,
      List.getElem?_range (by omega)]
    rfl
  rw [hset, Bytes.get_set_same]
  exact Nat.mod_eq_of_lt h

theorem take_flatMap_wordBytes {ws : List ℕ} {i w : ℕ} (h : ws[i]? = some w) :
    ((ws.flatMap wordBytes).drop (8 * i)).take 8 = wordBytes w := by
  induction ws generalizing i with
  | nil => cases h
  | cons a ws ih =>
    have hlen := wordBytes_length a
    rw [List.flatMap_cons]
    cases i with
    | zero =>
      cases h
      rw [Nat.mul_zero, List.drop_zero, ← hlen, List.take_left]
    | succ i =>
      rw [show 8 * (i + 1) = (wordBytes a).length + 8 * i by omega, ← List.drop_drop, List.drop_left]
      exact ih h

theorem slice_blit_drop {d : Bytes} {o k n : ℕ} {l : List UInt8} (h : k + n ≤ l.length) :
    (d.blit o l).slice (o + k) n = (l.drop k).take n := by
  apply List.ext_getElem?
  intro i
  by_cases hi : i < n
  · rw [slice_getElem? _ _ hi, List.getElem?_take, if_pos hi, List.getElem?_drop,
      List.getElem?_eq_getElem (by omega)]
    unfold Bytes.blit
    rw [if_pos (by omega), List.getD_eq_getElem?_getD, show o + k + i - o = k + i by omega,
      List.getElem?_eq_getElem (by omega), Option.getD_some]
  · rw [List.getElem?_eq_none (by rw [slice_length]; omega),
      List.getElem?_eq_none (by rw [List.length_take]; omega)]

/-! ## The stack -/

/-- The stack of a program of size `sz` as the program sees it: at `sp` there are pointers `ptrs` to
the arguments, and then 0. -/
structure ArgStack (cfg : Config) (ph : Phys) (pt sz sp : ℕ) (argv : List (List UInt8))
    (ptrs : List ℕ) : Prop where
  aligned : sp % 16 = 0
  inside : sz - PGSIZE ≤ sp ∧ sp < sz
  count : ptrs.length = argv.length
  words : ∀ i w, (ptrs ++ [0])[i]? = some w →
    ∃ l, copyin cfg pt (sp + 8 * i) 8 ph = .ok (some l, ph) ∧ field l 0 8 = w
  strings : ∀ y ∈ ptrs.zip argv,
    copyin cfg pt y.1 (y.2.length + 1) ph = .ok (some (y.2 ++ [0]), ph)
  page : ∀ y ∈ ptrs.zip argv, sp + 8 * (argv.length + 1) ≤ y.1 ∧ y.1 + (y.2.length + 1) ≤ sz
  apart : (ptrs.zip argv).Pairwise fun x y => y.1 + (y.2.length + 1) ≤ x.1

variable {H : Type} {cfg : Config} {owns : ℕ → ℕ → Prop} {p : Slot} {r t N : ℕ}
  {argv : List (List UInt8)} {path : List UInt8} {G : Ghost H}

theorem argSpace_mod (argv : List (List UInt8)) : argSpace argv % 16 = 0 := by
  have := strSpace_mod argv
  unfold argSpace up16
  omega

theorem Space.argStack {B : Bytes} {ph : Phys}
    (h : Space cfg owns t r (N + 2) (some N) (stackBytes B (4096 * (N + 2)) argv) ph G)
    (hfit : argSpace argv ≤ PGSIZE) :
    ArgStack cfg ph (4096 * r) (4096 * (N + 2)) (4096 * (N + 2) - argSpace argv) argv
      (argPtrs (4096 * (N + 2)) argv) := by
  have hfit' : argSpace argv ≤ 4096 := hfit
  have hN := h.lt
  have hmod := argSpace_mod argv
  have hspace : argSpace argv = strSpace argv + up16 (8 * (argv.length + 1)) := rfl
  have hup := le_up16 (8 * (argv.length + 1))
  have hstr : strSpace argv ≤ 4096 * (N + 2) := by omega
  have hptrs := argPtrs_le hstr
  -- everything between `sp` and the end can be read
  have hread : ∀ a n, 4096 * (N + 2) - argSpace argv ≤ a → a + n ≤ 4096 * (N + 2) →
      Mem.copyin cfg (4096 * r) a n ph =
        .ok (some ((stackBytes B (4096 * (N + 2)) argv).slice a n), ph) := fun a n ha hn =>
    h.copyin fun i hi => h.stackPage (by omega) (by omega)
  refine ⟨by omega, ⟨by unfold PGSIZE; omega, by omega⟩, argPtrs_length .., fun i w hw => ?_,
    fun y hy => ?_, fun y hy => ?_, argPtrs_pairwise hstr⟩
  · have hi : i < argv.length + 1 := by
      obtain ⟨hi, -⟩ := List.getElem?_eq_some_iff.mp hw
      rwa [List.length_append, argPtrs_length] at hi
    have hw64 : w < 2 ^ 64 := by
      obtain hmem | hmem := List.mem_append.mp (List.mem_of_getElem? hw)
      · have := argPtrs_mem_le hmem
        omega
      · rw [List.mem_singleton.mp hmem]
        decide
    refine ⟨_, hread _ 8 (by omega) (by omega), ?_⟩
    have hlen := argWords_length (4096 * (N + 2)) argv
    have hword : ((argWords (4096 * (N + 2)) argv).drop (8 * i)).take 8 = wordBytes w :=
      take_flatMap_wordBytes hw
    rw [stackBytes, slice_blit_drop (by omega), hword, field_wordBytes hw64]
  · have hy' := hptrs y hy
    rw [hread y.1 _ (by omega) (by omega), ← pushBytes_slice (B := B) hstr y hy]
    refine congrArg (fun l => Except.ok (some l, ph)) (slice_congr fun i hi => if_neg ?_)
    rw [argWords_length]
    omega
  · have hy' := hptrs y hy
    omega

/-! ## `exec` -/

/-- The new program of process `p`: `x` is what was loaded before the arguments, in `s1`. -/
structure ArgsPushed (cfg : Config) (p : Slot) (argv : List (List UInt8)) (x : Start)
    (s1 s' : State) (sp : ℕ) (ptrs : List ℕ) : Prop where
  pagetable : (s'.proc p).pagetable = some x.pagetable
  sz : (s'.proc p).sz = x.sz
  regs : Regs s'.phys.mem (x.tf / PGSIZE) x.entry sp
  stack : ArgStack cfg s'.phys x.pagetable x.sz sp argv ptrs
  ustack : (ptrs ++ [0]).length ≤ MAXARG
  below : ∀ va < x.sz - PGSIZE,
    byteAt cfg s'.phys x.pagetable va = byteAt cfg s1.phys x.pagetable va

theorem Executed.argsPushed {s s1 s' : State} {f : Image} {x : Start} {B : Bytes}
    {G1 G' : Ghost H} (he : Executed cfg owns p f path argv t r N B s s' G')
    (hi : Imaged cfg owns f t path s G x r N B s1 G1) (ha : Args argv) :
    ArgsPushed cfg p argv x s1 s' (4096 * (N + 2) - argSpace argv)
      (argPtrs (4096 * (N + 2)) argv) := by
  have hlt := he.space.lt
  rw [hi.start]
  constructor
  · rw [he.proc, Function.update_self]
  · rw [he.proc, Function.update_self]
  · rw [show 4096 * t / PGSIZE = t by unfold PGSIZE; omega]
    exact he.regs
  · exact he.space.argStack he.fits
  · rw [List.length_append, argPtrs_length]
    exact ha.count
  · intro va hva
    have hva' : va < 4096 * (N + 1) := by
      have : va < 4096 * (N + 2) - PGSIZE := hva
      unfold PGSIZE at this
      omega
    have hmax : va < MAXVA := by
      unfold MAXVA
      omega
    rw [he.space.ok.byteAt_eq he.space.pt.user.live hmax,
      hi.space.ok.byteAt_eq hi.space.pt.user.live hmax]
    exact (he.space.bytes va (by omega)).trans
      ((he.below va hva').trans (hi.space.bytes va (by omega)).symm)

/-- `exec` fails if the program cannot be loaded or the arguments do not fit into a page, and
otherwise the program finds its arguments. -/
theorem exec_arguments [Inhabited H] {s : State} {r0 : ℕ} (h : ProcMem cfg owns p t r0 s G)
    (ha : Args argv) (file : Option Image) :
    ∃ res s', exec cfg p path file argv s = .ok (res, s') ∧
      (res = none ↔ (∃ s1, execImage cfg p path file s = .ok (none, s1)) ∨ PGSIZE < argSpace argv) ∧
      ∀ argc, res = some argc → argc = argv.length ∧
        ∃ x s1 sp ptrs, execImage cfg p path file s = .ok (some x, s1) ∧
          ArgsPushed cfg p argv x s1 s' sp ptrs := by
  obtain ⟨res, s', hrun, hnone, hres⟩ := (exec_spec h ha file).exists_ok
  rw [not_le] at hnone
  refine ⟨res, s', hrun, hnone, ?_⟩
  rintro argc rfl
  obtain ⟨hargc, f, x, r, N, B, s1, G1, G', rfl, himage, hi, he, -⟩ := hres
  exact ⟨hargc, x, s1, _, _, himage, he.argsPushed hi ha⟩

theorem exec_arguments_hi :
    ∃ s', exec smallConfig initproc [] (some emptyProgram) [[104, 105], [97]] freshState =
        .ok (some 2, s') ∧
      ∃ x s1 sp ptrs, ArgsPushed smallConfig initproc [[104, 105], [97]] x s1 s' sp ptrs := by
  obtain ⟨r, G, h⟩ := fresh_procMem
  have ha : Args [[104, 105], [97]] := ⟨by decide, by decide⟩
  obtain ⟨s', hrun⟩ := fresh_exec emptyProgram_loaded ha (by decide)
  obtain ⟨res, s'', hrun', -, hres⟩ := exec_arguments h ha (some emptyProgram)
  rw [hrun] at hrun'
  obtain ⟨rfl, rfl⟩ := Prod.mk.inj (Except.ok.inj hrun')
  obtain ⟨-, x, s1, sp, ptrs, -, hp⟩ := hres 2 rfl
  exact ⟨s', hrun, x, s1, sp, ptrs, hp⟩

end TatakOS.Mem
