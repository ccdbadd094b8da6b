import TatakOS.Mem.Load

/-!
# The stack of a new program

The part of `exec` that makes the stack. The strings are put below each other in one page, each at a
multiple of 16, and below them the array of pointers to them. They fit exactly if the space that they
take, rounded up to multiples of 16, is at most a page.
-/

namespace TatakOS.Mem

open Function

variable {H : Type} {cfg : Config} {owns : ℕ → ℕ → Prop} {s s' s1 : Phys} {G G' G1 : Ghost H}
  {m m' B : Bytes} {l : List UInt8} {g : Option ℕ} {r t v va sz sp N : ℕ} {x : H}

/-! ## Where the arguments are -/

/-- The next multiple of 16. -/
def up16 (n : ℕ) : ℕ := (n + 15) / 16 * 16

/-- The space for the strings. -/
def strSpace : List (List UInt8) → ℕ
  | [] => 0
  | a :: as => up16 (a.length + 1) + strSpace as

/-- The space for the strings and the array. -/
def argSpace (argv : List (List UInt8)) : ℕ := strSpace argv + up16 (8 * (argv.length + 1))

/-- Where the strings are, below `sp`. -/
def argPtrs : ℕ → List (List UInt8) → List ℕ
  | _, [] => []
  | sp, a :: as => (sp - up16 (a.length + 1)) :: argPtrs (sp - up16 (a.length + 1)) as

/-- The contents with the strings. -/
def pushBytes : Bytes → ℕ → List (List UInt8) → Bytes
  | B, _, [] => B
  | B, sp, a :: as =>
    pushBytes (B.blit (sp - up16 (a.length + 1)) (a ++ [0])) (sp - up16 (a.length + 1)) as

/-- The array of pointers. -/
def argWords (sp : ℕ) (argv : List (List UInt8)) : List UInt8 :=
  (argPtrs sp argv ++ [0]).flatMap wordBytes

/-- The contents with the strings and the array. -/
def stackBytes (B : Bytes) (sp : ℕ) (argv : List (List UInt8)) : Bytes :=
  (pushBytes B sp argv).blit (sp - argSpace argv) (argWords sp argv)

theorem argPtrs_length (sp : ℕ) (argv : List (List UInt8)) :
    (argPtrs sp argv).length = argv.length := by
  induction argv generalizing sp with
  | nil => rfl
  | cons a as ih => rw [argPtrs, List.length_cons, List.length_cons, ih]

theorem wordBytes_length (n : ℕ) : (wordBytes n).length = 8 := by
  rw [wordBytes, List.length_map, List.length_range]

theorem flatMap_wordBytes_length (ws : List ℕ) : (ws.flatMap wordBytes).length = 8 * ws.length := by
  induction ws with
  | nil => rfl
  | cons w ws ih =>
    rw [List.flatMap_cons, List.length_append, ih, wordBytes_length, List.length_cons]
    omega

theorem argWords_length (sp : ℕ) (argv : List (List UInt8)) :
    (argWords sp argv).length = 8 * (argv.length + 1) := by
  rw [argWords, flatMap_wordBytes_length, List.length_append, argPtrs_length]
  rfl

theorem round_down {n : ℕ} (hsp : sp % 16 = 0) (hn : n ≤ sp) :
    (sp - n) - (sp - n) % 16 = sp - up16 n := by
  unfold up16
  omega

theorem sub64_eq {a b : ℕ} (hab : b ≤ a) (ha : a < 2 ^ 64) : sub64 a b = a - b := by
  unfold sub64
  omega

section Layout

variable {args : List (List UInt8)}

theorem le_up16 (n : ℕ) : n ≤ up16 n := by
  unfold up16
  omega

theorem strSpace_mod (args : List (List UInt8)) : strSpace args % 16 = 0 := by
  induction args with
  | nil => rfl
  | cons a as ih =>
    rw [strSpace]
    unfold up16
    omega

theorem argPtrs_le (h : strSpace args ≤ sp) : ∀ y ∈ (argPtrs sp args).zip args,
    sp - strSpace args ≤ y.1 ∧ y.1 + (y.2.length + 1) ≤ sp := by
  induction args generalizing sp with
  | nil => nofun
  | cons a as ih =>
    rw [strSpace] at h ⊢
    have hup := le_up16 (a.length + 1)
    rw [argPtrs, List.zip_cons_cons]
    rintro y (_ | ⟨_, hy⟩)
    · dsimp only
      omega
    · have := ih (by omega) y hy
      omega

theorem argPtrs_mem_le {w : ℕ} (h : w ∈ argPtrs sp args) : w ≤ sp := by
  induction args generalizing sp with
  | nil => cases h
  | cons a as ih =>
    obtain rfl | h := List.mem_cons.mp h
    · exact Nat.sub_le ..
    · exact (ih h).trans (Nat.sub_le ..)

theorem argPtrs_pairwise (h : strSpace args ≤ sp) :
    ((argPtrs sp args).zip args).Pairwise fun x y => y.1 + (y.2.length + 1) ≤ x.1 := by
  induction args generalizing sp with
  | nil => exact .nil
  | cons a as ih =>
    rw [strSpace] at h
    rw [argPtrs, List.zip_cons_cons, List.pairwise_cons]
    have hrest : strSpace as ≤ sp - up16 (a.length + 1) := by omega
    exact ⟨fun y hy => (argPtrs_le hrest y hy).2, ih hrest⟩

theorem pushBytes_above (h : strSpace args ≤ sp) (hva : sp ≤ va) : pushBytes B sp args va = B va := by
  induction args generalizing sp B with
  | nil => rfl
  | cons a as ih =>
    rw [strSpace] at h
    have hup := le_up16 (a.length + 1)
    rw [pushBytes, ih (by omega) (by omega)]
    refine if_neg ?_
    rw [List.length_append, List.length_singleton]
    omega

theorem slice_congr {d d' : Bytes} {o n : ℕ} (h : ∀ i < n, d (o + i) = d' (o + i)) :
    d.slice o n = d'.slice o n :=
  List.map_congr_left fun i hi => h i (List.mem_range.mp hi)

theorem slice_blit (d : Bytes) (o : ℕ) (l : List UInt8) : (d.blit o l).slice o l.length = l := by
  apply List.ext_getElem
  · rw [slice_length]
  · intro i h1 h2
    unfold Bytes.slice Bytes.blit
    simp [h2]

theorem pushBytes_slice (h : strSpace args ≤ sp) : ∀ y ∈ (argPtrs sp args).zip args,
    (pushBytes B sp args).slice y.1 (y.2.length + 1) = y.2 ++ [0] := by
  induction args generalizing sp B with
  | nil => nofun
  | cons a as ih =>
    rw [strSpace] at h
    have hup := le_up16 (a.length + 1)
    rw [argPtrs, List.zip_cons_cons, pushBytes]
    rintro y (_ | ⟨_, hy⟩)
    · dsimp only
      rw [slice_congr fun i _ => pushBytes_above (by omega) (by omega)]
      have := slice_blit B (sp - up16 (a.length + 1)) (a ++ [0])
      rwa [List.length_append] at this
    · exact ih (by omega) y hy

end Layout

/-! ## Pushing them -/

theorem Space.copyout (h : Space cfg owns t r N g B s G)
    (hp : ∀ i < l.length, UserPage (G.leaf r) ((va + i) / 4096)) :
    Spec (copyout cfg (4096 * r) va l) s (fun ok s' => ok = true ∧
      Space cfg owns t r N g (B.blit va l) s' G ∧ Frame r Set.univ ∅ s s' G G) Never := by
  refine (copyout_spec h.pageTable h.separate va l).imp ?_
  rintro ok s' ⟨k, hk, hok, -, hstop, hw, hs'⟩
  have hall : k = l.length := by
    by_contra hne
    exact hstop (by omega) (hp k (by omega))
  rw [hall, List.take_length] at hw
  obtain ⟨h', hframe⟩ := h.wrote hw hp
  rw [← hs'] at h' hframe
  exact ⟨hok.mpr hall, h', hframe⟩

theorem Space.copyin {n : ℕ} (h : Space cfg owns t r N g B s G)
    (hp : ∀ i < n, UserPage (G.leaf r) ((va + i) / 4096)) :
    copyin cfg (4096 * r) va n s = .ok (some (B.slice va n), s) := by
  rw [copyin_eq h.pageTable.tree]
  have hread : readUser s.mem (G.leaf r) va n = some (B.slice va n) := by
    refine readUser_eq_some.mpr ⟨slice_length .., fun i hi => ?_⟩
    have hlt := h.pt.user_lt (hp i hi)
    rw [slice_getElem? _ _ hi, ← h.bytes (va + i) (by omega), userByte,
      userAddr_eq_some.mpr ⟨hp i hi, rfl⟩]
    rfl
  rw [hread]

section

variable (h : Space cfg owns t r (N + 2) (some N) B s G)
include h

theorem Space.stackPage {a : ℕ} (hlo : 4096 * (N + 1) ≤ a) (hhi : a < 4096 * (N + 2)) :
    UserPage (G.leaf r) (a / 4096) := by
  refine h.userPage_iff.mpr ⟨by omega, fun e => ?_⟩
  have := Option.some.inj e
  omega

theorem Space.pushArgs {args : List (List UInt8)} {ustack : List ℕ} (hsp : sp % 16 = 0)
    (hlo : 4096 * (N + 1) ≤ sp) (hhi : sp ≤ 4096 * (N + 2)) (hargs : ∀ a ∈ args, a.length < PGSIZE)
    (hcount : ustack.length + args.length ≤ MAXARG) :
    Spec (pushArgs cfg (4096 * r) (4096 * (N + 1)) args sp ustack) s (fun res s' => ∃ B',
      Space cfg owns t r (N + 2) (some N) B' s' G ∧ Frame r Set.univ ∅ s s' G G ∧
      (∀ va < 4096 * (N + 1), B' va = B va) ∧
      if strSpace args ≤ sp - 4096 * (N + 1) then
        res = some (sp - strSpace args, ustack ++ argPtrs sp args) ∧ B' = pushBytes B sp args
      else res = none) Never := by
  induction args generalizing s sp ustack B with
  | nil =>
    rw [Mem.pushArgs, spec_pure]
    refine ⟨B, h, .refl .., fun _ _ => rfl, ?_⟩
    rw [strSpace, if_pos (Nat.zero_le _), argPtrs, List.append_nil]
    exact ⟨rfl, rfl⟩
  | cons a as ih =>
    have hN := h.lt
    have ha : a.length < 4096 := hargs a (List.mem_cons_self ..)
    rw [List.length_cons] at hcount
    rw [Mem.pushArgs, if_neg (by omega)]
    dsimp only
    rw [sub64_eq (by omega) (by omega), round_down hsp (by omega), strSpace]
    have hup : a.length + 1 ≤ up16 (a.length + 1) ∧ up16 (a.length + 1) % 16 = 0 := by
      unfold up16
      omega
    by_cases hfit : sp - up16 (a.length + 1) < 4096 * (N + 1)
    · rw [if_pos hfit, spec_pure]
      refine ⟨B, h, .refl .., fun _ _ => rfl, ?_⟩
      rw [if_neg (by omega)]
    rw [if_neg hfit, spec_bind]
    have hlen : (a ++ [0]).length = a.length + 1 := List.length_append
    refine (h.copyout fun i hi => h.stackPage ?_ ?_).imp ?_
    · omega
    · omega
    rintro _ s1 ⟨rfl, h1, hf1⟩
    rw [if_pos rfl]
    refine (ih h1 (by omega) (by omega) (by omega)
      (fun a' ha' => hargs a' (List.mem_cons_of_mem _ ha')) ?_).imp ?_
    · rw [List.length_append, List.length_singleton]
      omega
    rintro res s' ⟨B', h', hf', hbelow, hres⟩
    refine ⟨B', h', hf1.trans hf', fun va hva => ?_, ?_⟩
    · rw [hbelow va hva]
      exact if_neg (by omega)
    · by_cases hrest : strSpace as ≤ sp - up16 (a.length + 1) - 4096 * (N + 1)
      · rw [if_pos hrest] at hres
        rw [if_pos (by omega), hres.1, hres.2]
        refine ⟨?_, rfl⟩
        rw [argPtrs, List.append_assoc, Nat.sub_sub]
        rfl
      · rw [if_neg hrest] at hres
        rw [if_neg (by omega)]
        exact hres

/-- `exec` fills the stack exactly if everything fits into the page. It writes nowhere else. -/
theorem Space.pushStack {argv : List (List UInt8)} (hargs : ∀ a ∈ argv, a.length < PGSIZE)
    (hcount : argv.length < MAXARG) :
    Spec (pushStack cfg (4096 * r) (4096 * (N + 2)) argv) s (fun res s' => ∃ B',
      Space cfg owns t r (N + 2) (some N) B' s' G ∧ Frame r Set.univ ∅ s s' G G ∧
      (∀ va < 4096 * (N + 1), B' va = B va) ∧
      if argSpace argv ≤ PGSIZE then
        res = some (4096 * (N + 2) - argSpace argv) ∧ B' = stackBytes B (4096 * (N + 2)) argv
      else res = none) Never := by
  have hN := h.lt
  have hbase : 4096 * (N + 2) - PGSIZE = 4096 * (N + 1) := by
    unfold PGSIZE
    omega
  unfold Mem.pushStack
  dsimp only
  rw [spec_bind, hbase]
  refine (h.pushArgs (by omega) (by omega) le_rfl hargs (by rw [List.length_nil]; omega)).imp ?_
  rintro res s1 ⟨B1, h1, hf1, hbelow, hres⟩
  have hspace : argSpace argv = strSpace argv + up16 (8 * (argv.length + 1)) := rfl
  by_cases hstr : strSpace argv ≤ 4096 * (N + 2) - 4096 * (N + 1)
  · rw [if_pos hstr] at hres
    obtain ⟨rfl, rfl⟩ := hres
    have h16 := strSpace_mod argv
    have hwords : 8 * (argv.length + 1) ≤ 256 := by
      unfold MAXARG at hcount
      omega
    have hup : 8 * (argv.length + 1) ≤ up16 (8 * (argv.length + 1)) := by
      unfold up16
      omega
    dsimp only
    rw [show (argv.length + 1) * 8 = 8 * (argv.length + 1) by ring, sub64_eq (by omega) (by omega),
      round_down (by omega) (by omega), Nat.sub_sub, ← hspace, List.nil_append]
    by_cases hfit : argSpace argv ≤ PGSIZE
    · have hfit' : argSpace argv ≤ 4096 := hfit
      rw [if_neg (by omega), spec_bind]
      have hlen := argWords_length (4096 * (N + 2)) argv
      refine (h1.copyout fun i hi => h1.stackPage ?_ ?_).imp ?_
      · omega
      · rw [← argWords, hlen] at hi
        omega
      rintro _ s2 ⟨rfl, h2, hf2⟩
      rw [if_pos rfl, spec_pure]
      refine ⟨_, h2, hf1.trans hf2, fun va hva => ?_, ?_⟩
      · rw [← hbelow va hva]
        exact if_neg (by omega)
      · rw [if_pos hfit]
        exact ⟨rfl, rfl⟩
    · have hfit' : ¬ argSpace argv ≤ 4096 := hfit
      rw [if_pos (by omega), spec_pure]
      refine ⟨_, h1, hf1, hbelow, ?_⟩
      rw [if_neg hfit]
  · rw [if_neg hstr] at hres
    subst hres
    dsimp only
    rw [spec_pure]
    refine ⟨B1, h1, hf1, hbelow, ?_⟩
    unfold PGSIZE
    rw [if_neg (by omega)]

end

theorem Space.uvmclear (h : Space cfg owns t r N none B s G) (hv : v < N) :
    Spec (uvmclear cfg (4096 * r) (4096 * v)) s (fun _ s' => ∃ G',
      Space cfg owns t r N (some v) B s' G' ∧ Frame r Set.univ ∅ s s' G G') Never := by
  have hN := h.lt
  have hv31 : G.leaf r v % 1024 = 31 := h.flags v hv
  refine (uvmclear_spec h.ok h.pt.user hv (by omega) hv31).imp ?_
  rintro _ s' ⟨G', h', hlive, hframe, hL⟩
  -- every page stays where it is
  have hpage : ∀ u, G'.leaf r u / 1024 = G.leaf r u / 1024 := by
    intro u
    rw [hL]
    by_cases e : u = v
    · rw [e, update_self]
      omega
    · rw [update_of_ne e]
  have hother : ∀ u, u ≠ v → G'.leaf r u = G.leaf r u := fun u hu => by
    rw [hL, update_of_ne hu]
  have hguard : G'.leaf r v = G.leaf r v - 16 := by rw [hL, update_self]
  have htop : v < top := by
    unfold top
    omega
  refine ⟨G', ⟨h', h.owns, ⟨⟨(hlive r).mpr h.pt.user.live, fun u hu => ?_, fun u hu hu' => ?_⟩,
    ?_, ?_, fun u hu => ?_⟩, fun u hu => ?_, fun va hva => ?_⟩,
    hframe.mono (Set.empty_subset _) subset_rfl⟩
  · by_cases e : u = v
    · rw [e, hguard]
      omega
    · rw [hother u e]
      exact h.pt.user.mapped u hu
  · rw [hother u (by omega)]
    exact h.pt.user.empty u hu hu'
  · rw [hother _ (by omega), h.pt.trapframe]
  · rw [hother _ (by omega), h.pt.trampoline]
  · rw [hother _ (by omega), h.pt.beyond u hu]
  · by_cases e : u = v
    · rw [e, hguard, if_pos rfl]
      omega
    · rw [hother u e, if_neg fun e' => e (Option.some.inj e').symm]
      exact h.flags u hu
  · rw [← h.bytes va hva]
    unfold userMem
    rw [hpage]
    have hown := h.leaf_own (show va / 4096 < N by omega)
    exact hframe.user_bytes hown (Set.notMem_empty _) _ (by omega)

end TatakOS.Mem
