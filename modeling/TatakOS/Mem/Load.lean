import TatakOS.Mem.Exec
import TatakOS.Mem.Space
import TatakOS.Mem.Strings

/-!
# Loading a program

The part of `exec` that fills a new page table from the file. What a process sees of its memory is a
function from addresses to bytes; `uvmalloc` makes more of it visible, as zeros, and `loadseg` lays
the bytes of a segment over it.
-/

namespace TatakOS.Mem

variable {H : Type} {cfg : Config} {owns : ℕ → ℕ → Prop} {s s' s1 : Phys} {G G' G1 : Ghost H}
  {m m' B : Bytes} {L : ℕ → ℕ} {l : List UInt8} {g : Option ℕ} {r t v va sz N : ℕ} {x : H}

/-! ## What a process sees -/

/-- The byte at `va`, wherever it is mapped to. -/
def userMem (m : Bytes) (L : ℕ → ℕ) (va : ℕ) : UInt8 :=
  m (4096 * (L (va / 4096) / 1024) + va % 4096)

/-- A page table of a process with `N` pages and the contents `B`. The user may access all pages but
`g`. -/
structure Space (cfg : Config) (owns : ℕ → ℕ → Prop) (t r N : ℕ) (g : Option ℕ) (B : Bytes)
    (s : Phys) (G : Ghost H) : Prop where
  ok : MemOk cfg owns s G
  owns : ∀ v, owns r v ↔ v < top
  pt : ProcPt cfg G t r N
  flags : ∀ v < N, G.leaf r v % 1024 = if g = some v then 15 else 31
  bytes : ∀ va < 4096 * N, userMem s.mem (G.leaf r) va = B va

theorem ProcPt.user_lt (hp : ProcPt cfg G t r N) (hv : UserPage (G.leaf r) v) : v < N := by
  obtain ⟨hlt, h1, h16, -⟩ := userPage_iff.mp hv
  by_contra hN
  by_cases e : v < top
  · rw [hp.user.empty v (by omega) e] at h1
    omega
  · by_cases e' : v = top
    · rw [e', hp.trapframe] at h16
      omega
    · have e'' : v = top + 1 := by
        unfold top at *
        omega
      rw [e'', hp.trampoline] at h16
      omega

section Space

variable (h : Space cfg owns t r N g B s G)
include h

theorem Space.lt : N ≤ 32767 := h.pt.user.le h.ok h.owns

theorem Space.leaf_own (hv : v < N) : G.own (G.leaf r v / 1024) = .leaf r v := by
  have hN := h.lt
  have h0 := (h.pt.user.ne_zero hv).1
  exact (h.ok.leaf _ r v).mpr ⟨h.pt.user.live, (h.owns v).mpr (by unfold top; omega), h0, rfl⟩

theorem Space.userPage_iff : UserPage (G.leaf r) v ↔ v < N ∧ g ≠ some v := by
  constructor
  · intro hv
    have hlt := h.pt.user_lt hv
    refine ⟨hlt, fun e => ?_⟩
    have hf := h.flags v hlt
    rw [if_pos e] at hf
    obtain ⟨-, -, h16, -⟩ := Mem.userPage_iff.mp hv
    omega
  · rintro ⟨hv, hg⟩
    have hN := h.lt
    have hf := h.flags v hv
    rw [if_neg hg] at hf
    have hpos : G.leaf r v / 1024 ≠ 0 := h.ok.pos (by rw [h.leaf_own hv]; nofun)
    exact Mem.userPage_iff.mpr ⟨by omega, by omega, by omega, hpos⟩

theorem Space.separate : Separate (G.leaf r) := by
  intro v v' hv hv' e
  have h1 := h.leaf_own (h.pt.user_lt hv)
  have h2 := h.leaf_own (h.pt.user_lt hv')
  have e' : G.leaf r v / 1024 = G.leaf r v' / 1024 := by
    rw [pte2pa_eq, pte2pa_eq] at e
    omega
  rw [e', h2] at h1
  exact (Own.leaf.inj h1).2.symm

theorem Space.pageTable : PageTable s.mem G.own r (G.leaf r) where
  tree := h.ok.tree r h.pt.user.live
  apart v hv l p := by
    rw [pte2pa_eq, Nat.mul_div_cancel_left _ (by decide), h.leaf_own (h.pt.user_lt hv)]
    nofun

theorem Space.wrote (hw : Wrote (G.leaf r) va l s.mem m')
    (hl : ∀ i < l.length, UserPage (G.leaf r) ((va + i) / 4096)) :
    Space cfg owns t r N g (B.blit va l) { s with mem := m' } G ∧
      Frame r Set.univ ∅ s { s with mem := m' } G G := by
  -- a page that changes is a user page
  have hpage : ∀ n, (∀ v, G.own n ≠ .leaf r v) → SamePage s.mem m' n := by
    intro n hn a ha
    refine hw.rest a fun i hi e => ?_
    obtain ⟨hp, e⟩ := userAddr_eq_some.mp e
    have hown := h.leaf_own (h.pt.user_lt hp)
    rw [show G.leaf r ((va + i) / 4096) / 1024 = n by omega] at hown
    exact hn _ hown
  have haddr : ∀ a, UserPage (G.leaf r) (a / 4096) →
      userAddr (G.leaf r) a = some (4096 * (G.leaf r (a / 4096) / 1024) + a % 4096) := fun a ha =>
    userAddr_eq_some.mpr ⟨ha, rfl⟩
  refine ⟨⟨?_, h.owns, h.pt, h.flags, fun a ha => ?_⟩, ?_⟩
  · refine h.ok.data (fun n hn => hpage n fun v e => ?_) s.calls
    rw [e] at hn
    obtain hn | ⟨_, _, _, hn⟩ := hn <;> cases hn
  · unfold Bytes.blit userMem
    split_ifs with hin
    · have hb : l[a - va]? = some (l.getD (a - va) 0) := by
        rw [List.getD_eq_getElem?_getD, List.getElem?_eq_getElem (by omega), Option.getD_some]
      have hp := hl (a - va) (by omega)
      rw [show va + (a - va) = a by omega] at hp
      refine hw.byte (a - va) _ _ ?_ hb
      rw [show va + (a - va) = a by omega]
      exact haddr a hp
    · rw [← h.bytes a ha]
      refine hw.rest _ fun i hi e => ?_
      obtain ⟨hp, e⟩ := userAddr_eq_some.mp e
      -- two addresses in one physical page are in one virtual page
      have hown := h.leaf_own (h.pt.user_lt hp)
      have hown' := h.leaf_own (show a / 4096 < N by omega)
      rw [show G.leaf r ((va + i) / 4096) / 1024 = G.leaf r (a / 4096) / 1024 by omega,
        hown'] at hown
      have := (Own.leaf.inj hown).2
      omega
  · refine Frame.of_own rfl (fun n hn => hpage n fun v e => ?_) (fun _ _ => rfl) fun _ _ => .rfl
    rw [e] at hn
    exact hn rfl trivial

end Space

/-! ## More memory -/

/-- The contents are zero behind the `N` pages. -/
def ZeroFrom (B : Bytes) (N : ℕ) : Prop := ∀ va, 4096 * N ≤ va → B va = 0

theorem Space.uvmalloc {newsz : ℕ} (x : H) (h : Space cfg owns t r (pages sz) none B s G)
    (hB : ZeroFrom B (pages sz)) :
    Spec (uvmalloc cfg (4096 * r) sz newsz) s (fun res s' => ∃ G',
      Frame r Set.univ ∅ s s' G G' ∧
      (res = 0 ∧ Space cfg owns t r (pages sz) none B s' G' ∨
        res = max sz newsz ∧ Space cfg owns t r (pages res) none B s' G')) Never := by
  have hlt := h.lt
  refine (uvmalloc_spec x h.ok h.owns h.pt.user).imp ?_
  rintro res s' ⟨L, ⟨G', h', hlive, hframe, hL⟩, hres⟩
  have hlive' := (hlive r).mpr h.pt.user.live
  -- the old pages have not changed
  have hold : (∀ v < pages sz, L v = G.leaf r v) → ∀ va < 4096 * pages sz,
      userMem s'.mem (G'.leaf r) va = B va := by
    intro hsame va hva
    have hv : va / 4096 < pages sz := by omega
    rw [← h.bytes va hva]
    unfold userMem
    rw [hL, hsame _ hv]
    exact hframe.user_bytes (h.leaf_own hv) (by simpa using hv) _ (by omega)
  refine ⟨G', hframe.mono (Set.subset_univ _) subset_rfl, ?_⟩
  obtain ⟨hres, hgrown⟩ | ⟨rfl, rfl⟩ := hres
  · right
    have hle : pages sz ≤ pages res := by
      unfold pages
      omega
    have hsame : ∀ v, ¬ (pages sz ≤ v ∧ v < pages res) → L v = G.leaf r v := hgrown.2
    have hpt : UserPt G' r (pages res) := by
      refine h.pt.user.grown hlive' hL hgrown hle fun u w _ hw => ?_
      have := hw.1
      omega
    have hlt' := hpt.le h' h.owns
    refine ⟨hres, h', h.owns, ⟨hpt, ?_, ?_, fun v hv => ?_⟩, fun v hv => ?_, fun va hva => ?_⟩
    · rw [hL, hsame _ (by unfold top; omega), h.pt.trapframe]
    · rw [hL, hsame _ (by unfold top; omega), h.pt.trampoline]
    · rw [hL, hsame _ (by unfold top at hv; omega), h.pt.beyond v hv]
    · rw [hL]
      by_cases e : v < pages sz
      · rw [hsame v (by omega)]
        exact h.flags v e
      · exact (hgrown.1 v (by omega) hv).1
    · by_cases e : va < 4096 * pages sz
      · exact hold (fun v hv => hsame v (by omega)) va e
      · rw [hB va (by omega)]
        unfold userMem
        rw [hL]
        exact (hgrown.1 (va / 4096) (by omega) (by omega)).2 _ (by omega)
  · left
    refine ⟨rfl, h', h.owns, h.pt.congr hlive' hL, fun v hv => ?_, hold fun _ _ => rfl⟩
    rw [hL]
    exact h.flags v hv

/-! ## Segments -/

theorem Image.readi_length_le (f : Image) (off n : ℕ) : (f.readi off n).length ≤ n := by
  unfold Image.readi
  split_ifs
  · exact Nat.zero_le n
  · rw [slice_length]
    omega
  · rw [slice_length]

variable {f : Image}

theorem Image.readi_full {off n : ℕ} (h : (f.readi off n).length = n) (hn : 0 < n)
    (hn' : n < 2 ^ 32) (hoff : off < 2 ^ 32) :
    off + n ≤ f.size ∧ off + n < 2 ^ 32 ∧ f.readi off n = f.data.slice off n := by
  unfold Image.readi at h ⊢
  split_ifs at h ⊢ with h1 h2
  · exact absurd h hn.ne
  · rw [slice_length] at h
    omega
  · exact ⟨by omega, by omega, rfl⟩

theorem Image.slice_add (d : Bytes) (o n k : ℕ) :
    d.slice o (n + k) = d.slice o n ++ d.slice (o + n) k := by
  unfold Bytes.slice
  rw [List.range_add, List.map_append, List.map_map]
  simp [Function.comp_def, Nat.add_assoc]

/-- What the rounds of `loadseg` from `i` on have written. -/
structure Loaded (L : ℕ → ℕ) (va : ℕ) (f : Image) (offset sz i : ℕ) (s : Phys) (ok : Bool)
    (l : List UInt8) (s' : Phys) : Prop where
  length : l.length ≤ sz - i
  wrote : Wrote L (va + i) l s.mem s'.mem
  state : s' = { s with mem := s'.mem }
  bytes : ok = true → l = f.data.slice (offset + i) (sz - i)
  inside : ok = true → i < sz → offset + sz ≤ f.size ∧ offset + sz < 2 ^ 32

theorem Loaded.end_ {offset i : ℕ} (hi : sz ≤ i) (ok : Bool) :
    Loaded L va f offset sz i s ok [] s where
  length := Nat.zero_le _
  wrote := .nil ..
  state := rfl
  bytes _ := by
    rw [Nat.sub_eq_zero_of_le hi]
    rfl
  inside _ h := absurd h (by omega)

/-- A round that has read all it asked for, and the rounds after it. -/
theorem Loaded.cons {offset i k : ℕ} {ok : Bool} {l' : List UInt8} (hs : Separate L)
    (hi : i < sz) (hk : k = min (sz - i) 4096) (hl : l.length = k)
    (hslice : l = f.data.slice (offset + i) k)
    (hin : offset + i + k ≤ f.size ∧ offset + i + k < 2 ^ 32)
    (hw : Wrote L (va + i) l s.mem s1.mem) (hs1 : s1 = { s with mem := s1.mem })
    (h : Loaded L va f offset sz (i + 4096) s1 ok l' s') :
    Loaded L va f offset sz i s ok (l ++ l') s' := by
  have hlen := h.length
  have hstate : s' = { s with mem := s'.mem } := by
    rw [h.state, hs1]
  by_cases hlast : sz ≤ i + 4096
  · -- the last round
    obtain rfl : l' = [] := List.length_eq_zero_iff.mp (by omega)
    have hmem : s'.mem = s1.mem := funext fun a => h.wrote.rest a (by simp)
    rw [List.append_nil]
    have hki : k = sz - i := by omega
    refine ⟨by omega, hmem ▸ hw, hstate, fun _ => ?_, fun _ _ => ?_⟩
    · rw [hslice, hki]
    · omega
  · have hk4 : k = 4096 := by omega
    have hw' := h.wrote
    rw [show va + (i + 4096) = va + i + l.length by omega] at hw'
    refine ⟨?_, hw.append hs hw', hstate, fun hok => ?_, fun hok _ => ?_⟩
    · rw [List.length_append]
      omega
    · rw [h.bytes hok, hslice, hk4, ← Nat.add_assoc, ← Image.slice_add,
        show 4096 + (sz - (i + 4096)) = sz - i by omega]
    · exact h.inside hok (by omega)

theorem loadLoop_spec {own : ℕ → Own H} {offset n i : ℕ}
    (h : PageTable s.mem own r L) (hs : Separate L) (hva : va % 4096 = 0) (hi : i % 4096 = 0)
    (hn : n = (sz - i + 4095) / 4096) (hoff : i < sz → offset + i < 2 ^ 32)
    (hp : ∀ j < sz, UserPage L ((va + j) / 4096)) :
    Spec (loadLoop cfg (4096 * r) va f offset sz n i) s
      (fun ok s' => ∃ l, Loaded L va f offset sz i s ok l s') Never := by
  induction n generalizing s i with
  | zero =>
    rw [loadLoop, spec_pure]
    exact ⟨[], .end_ (by omega) true⟩
  | succ n ih =>
    have hlt : i < sz := by omega
    have hpage := hp i hlt
    have hv : va + i = 4096 * ((va + i) / 4096) := by omega
    have hwalk : walkaddr cfg (4096 * r) (va + i) s =
        .ok (some (4096 * (L ((va + i) / 4096) / 1024)), s) := by
      rw [hv, walkaddr_eq h.tree, Nat.mul_div_cancel_left _ (by decide), userAddr_page hpage]
    have hoff' := hoff hlt
    obtain ⟨k, hk⟩ : ∃ k, k = min (sz - i) PGSIZE := ⟨_, rfl⟩
    have hk' : k = min (sz - i) 4096 := hk
    have hle := f.readi_length_le (offset + i) k
    have hw : Wrote L (va + i) (f.readi (offset + i) k) s.mem
        (s.mem.blit (4096 * (L ((va + i) / 4096) / 1024)) (f.readi (offset + i) k)) := by
      have := Wrote.page (l := f.readi (offset + i) k) hpage (by omega) s.mem
      rwa [show (va + i) % 4096 = 0 by omega, Nat.add_zero] at this
    rw [loadLoop, spec_bind, spec_of_eq_ok hwalk]
    dsimp only
    rw [Nat.mod_eq_of_lt hoff', ← hk, spec_bind, spec_put]
    by_cases hshort : (f.readi (offset + i) k).length = k
    · rw [if_neg (not_not.mpr hshort)]
      obtain ⟨hsize, hwrap, hslice⟩ := f.readi_full hshort (by omega) (by omega) hoff'
      have hnext : i + 4096 < sz → offset + (i + 4096) < 2 ^ 32 := by
        intro hlt'
        rw [← Nat.add_assoc]
        rwa [show k = 4096 by omega] at hwrap
      refine (ih (h.wrote hw) (show (i + 4096) % 4096 = 0 by omega) (by omega) hnext).imp ?_
      rintro ok s' ⟨l', hl'⟩
      refine ⟨_, .cons hs hlt hk' hshort hslice ⟨hsize, hwrap⟩ ?_ ?_ hl'⟩
      · exact hw
      · rfl
    · rw [if_pos hshort, spec_pure]
      exact ⟨_, by omega, hw, rfl, nofun, nofun⟩

/-- `n` program headers from offset `off` on. -/
def Image.segments (f : Image) (off n : ℕ) : List ProgHdr :=
  (List.range n).map fun i => ProgHdr.ofBytes (f.data.slice (off + proghdrSize * i) proghdrSize)

theorem Image.segments_succ (f : Image) (off n : ℕ) : f.segments off (n + 1) =
      ProgHdr.ofBytes (f.data.slice off proghdrSize) :: f.segments (off + proghdrSize) n := by
  unfold Image.segments
  rw [List.range_succ_eq_map, List.map_cons, List.map_map, Nat.mul_zero, Nat.add_zero]
  refine congrArg _ (List.map_congr_left fun i _ => ?_)
  rw [Function.comp_apply, Nat.mul_succ, Nat.add_comm _ proghdrSize, ← Nat.add_assoc]

/-- What `exec` has checked of a segment that it loads. -/
structure ProgHdr.Ok (f : Image) (ph : ProgHdr) : Prop where
  filesz : ph.filesz ≤ ph.memsz
  aligned : ph.vaddr % PGSIZE = 0
  inside : 0 < ph.filesz → ph.off % 2 ^ 32 + ph.filesz ≤ f.size ∧
    ph.off % 2 ^ 32 + ph.filesz < 2 ^ 32

/-- The size of a program. -/
def imageSize : List ProgHdr → ℕ → ℕ
  | [], sz => sz
  | ph :: phs, sz =>
    imageSize phs (if ph.type = ELF_PROG_LOAD then max sz (ph.vaddr + ph.memsz) else sz)

/-- The contents of a program. -/
def imageBytes (f : Image) : List ProgHdr → Bytes → Bytes
  | [], B => B
  | ph :: phs, B =>
    imageBytes f phs (if ph.type = ELF_PROG_LOAD then
      B.blit ph.vaddr (f.data.slice (ph.off % 2 ^ 32) ph.filesz) else B)

/-- `n` segments from offset `off` on were loaded over `sz` bytes `B`. -/
structure LoadedAll (f : Image) (off n sz : ℕ) (B : Bytes) (sz' : ℕ) (B' : Bytes) : Prop where
  inside : 0 < n → off + proghdrSize * n ≤ f.size ∧ off + proghdrSize * n < 2 ^ 32
  ok : ∀ ph ∈ f.segments off n, ph.type = ELF_PROG_LOAD → ph.Ok f
  size : sz' = imageSize (f.segments off n) sz
  bytes : B' = imageBytes f (f.segments off n) B

theorem field_lt (l : List UInt8) (o w : ℕ) : field l o w < 256 ^ w := Bytes.get_lt

theorem LoadedAll.cons {off n sz1 sz' : ℕ} {B1 B' : Bytes} {ph : ProgHdr}
    (hph : ph = ProgHdr.ofBytes (f.data.slice off proghdrSize))
    (hin : off + proghdrSize ≤ f.size ∧ off + proghdrSize < 2 ^ 32)
    (hok : ph.type = ELF_PROG_LOAD → ph.Ok f)
    (hsz : sz1 = if ph.type = ELF_PROG_LOAD then max sz (ph.vaddr + ph.memsz) else sz)
    (hB : B1 = if ph.type = ELF_PROG_LOAD then
      B.blit ph.vaddr (f.data.slice (ph.off % 2 ^ 32) ph.filesz) else B)
    (h : LoadedAll f (off + proghdrSize) n sz1 B1 sz' B') : LoadedAll f off (n + 1) sz B sz' B' where
  inside _ := by
    rcases Nat.eq_zero_or_pos n with rfl | hn
    · simpa using hin
    · have := h.inside hn
      rwa [Nat.mul_succ, Nat.add_comm (proghdrSize * n), ← Nat.add_assoc]
  ok := by
    rw [f.segments_succ, ← hph]
    rintro ph' (_ | ⟨_, hmem⟩)
    · exact hok
    · exact h.ok ph' hmem
  size := by rw [h.size, f.segments_succ, ← hph, imageSize, hsz]
  bytes := by rw [h.bytes, f.segments_succ, ← hph, imageBytes, hB]

/-- The bytes of a segment are laid over memory that has room for them. -/
theorem Space.loadseg {vaddr offset filesz : ℕ}
    (h : Space cfg owns t r (pages sz) none B s G) (hB : ZeroFrom B (pages sz))
    (hva : vaddr % 4096 = 0) (hsz : vaddr + filesz ≤ sz) (hoff : offset < 2 ^ 32) :
    Spec (loadseg cfg (4096 * r) vaddr f offset filesz) s (fun ok s' => ∃ B',
      Space cfg owns t r (pages sz) none B' s' G ∧ ZeroFrom B' (pages sz) ∧
      Frame r Set.univ ∅ s s' G G ∧ (ok = true → B' = B.blit vaddr (f.data.slice offset filesz) ∧
        (0 < filesz → offset + filesz ≤ f.size ∧ offset + filesz < 2 ^ 32))) Never := by
  have hpage : ∀ j < filesz, UserPage (G.leaf r) ((vaddr + j) / 4096) := by
    intro j hj
    refine h.userPage_iff.mpr ⟨?_, nofun⟩
    unfold pages
    omega
  unfold Mem.loadseg
  refine (loadLoop_spec h.pageTable h.separate hva rfl (by unfold PGSIZE; omega) (fun _ => hoff)
    hpage).imp ?_
  rintro ok s' ⟨l, hl⟩
  have hlen := hl.length
  obtain ⟨hspace, hframe⟩ := h.wrote hl.wrote fun i hi => hpage i (by omega)
  rw [← hl.state] at hspace hframe
  refine ⟨_, hspace, fun va hva' => ?_, hframe, fun hok => ⟨?_, hl.inside hok⟩⟩
  · unfold Bytes.blit
    unfold ZeroFrom pages at *
    rw [if_neg (by omega)]
    exact hB va hva'
  · rw [hl.bytes hok]
    rfl

theorem loadSegments_spec {off n : ℕ} (x : H)
    (h : Space cfg owns t r (pages sz) none B s G) (hB : ZeroFrom B (pages sz))
    (hoff : off < 2 ^ 32) :
    Spec (loadSegments cfg (4096 * r) f n off sz) s (fun res s' => ∃ G' B',
      Space cfg owns t r (pages res.1) none B' s' G' ∧ ZeroFrom B' (pages res.1) ∧
      Frame r Set.univ ∅ s s' G G' ∧ (res.2 = true → LoadedAll f off n sz B res.1 B')) Never := by
  induction n generalizing s G off sz B with
  | zero =>
    rw [loadSegments, spec_pure]
    exact ⟨G, B, h, hB, .refl .., fun _ => ⟨nofun, by simp [Image.segments], rfl, rfl⟩⟩
  | succ n ih =>
    have hstop : ∀ {s' : Phys} {G' : Ghost H} {sz' : ℕ} {B' : Bytes},
        Space cfg owns t r (pages sz') none B' s' G' → ZeroFrom B' (pages sz') →
        Frame r Set.univ ∅ s s' G G' → ∃ G' B',
          Space cfg owns t r (pages (sz', false).1) none B' s' G' ∧
          ZeroFrom B' (pages (sz', false).1) ∧ Frame r Set.univ ∅ s s' G G' ∧
          ((sz', false).2 = true → LoadedAll f off (n + 1) sz B (sz', false).1 B') :=
      fun h' hB' hf => ⟨_, _, h', hB', hf, nofun⟩
    rw [loadSegments]
    by_cases hlen : (f.readi off proghdrSize).length = proghdrSize
    · obtain ⟨hsize, hwrap, hread⟩ := f.readi_full hlen (by decide) (by decide) hoff
      rw [if_neg (not_not.mpr hlen), hread, Nat.mod_eq_of_lt hwrap]
      generalize hph : ProgHdr.ofBytes (f.data.slice off proghdrSize) = ph
      have hvaddr : ph.vaddr < 2 ^ 64 := by
        rw [← hph]
        exact field_lt _ _ 8
      have hmemsz : ph.memsz < 2 ^ 64 := by
        rw [← hph]
        exact field_lt _ _ 8
      by_cases htype : ph.type = ELF_PROG_LOAD
      · rw [if_neg (not_not.mpr htype)]
        by_cases hfilesz : ph.memsz < ph.filesz
        · rw [if_pos hfilesz, spec_pure]
          exact hstop h hB (.refl ..)
        rw [if_neg hfilesz]
        by_cases hsum : (ph.vaddr + ph.memsz) % 2 ^ 64 < ph.vaddr
        · rw [if_pos hsum, spec_pure]
          exact hstop h hB (.refl ..)
        rw [if_neg hsum, Nat.mod_eq_of_lt (show ph.vaddr + ph.memsz < 2 ^ 64 by omega), spec_bind]
        refine (h.uvmalloc x hB).imp ?_
        rintro sz1 s1 ⟨G1, hf1, hres⟩
        by_cases h0 : sz1 = 0
        · rw [if_pos h0, spec_pure]
          obtain ⟨-, h1⟩ | ⟨hmax, h1⟩ := hres
          · exact hstop h1 hB hf1
          · obtain rfl : sz = sz1 := by omega
            exact hstop h1 hB hf1
        obtain ⟨e, -⟩ | ⟨hmax, h1⟩ := hres
        · exact absurd e h0
        have hB1 : ZeroFrom B (pages sz1) := by
          intro va hva
          refine hB va ?_
          unfold pages at *
          omega
        rw [if_neg h0]
        by_cases halign : ph.vaddr % PGSIZE = 0
        · rw [if_neg (not_not.mpr halign), spec_bind]
          have hlt := h1.lt
          have hfs : ph.filesz < 2 ^ 32 := by
            unfold pages at hlt
            omega
          rw [Nat.mod_eq_of_lt hfs]
          refine (h1.loadseg hB1 halign (by omega) (Nat.mod_lt _ (by decide))).imp ?_
          rintro ok s2 ⟨B2, h2, hB2, hf2, hok⟩
          cases ok with
          | false =>
            rw [if_neg (by decide), spec_pure]
            exact hstop h2 hB2 (hf1.trans hf2)
          | true =>
            obtain ⟨rfl, hin⟩ := hok rfl
            rw [if_pos rfl]
            refine (ih h2 hB2 hwrap).imp ?_
            rintro res s' ⟨G', B', h', hB', hf, hres⟩
            refine ⟨G', B', h', hB', (hf1.trans hf2).trans hf, fun hok => ?_⟩
            refine .cons hph.symm ⟨hsize, hwrap⟩ (fun _ => ⟨not_lt.mp hfilesz, halign, hin⟩) ?_
              (if_pos htype).symm (hres hok)
            rw [if_pos htype, hmax]
        · rw [if_pos halign, spec_pure]
          exact hstop h1 hB1 hf1
      · rw [if_pos htype]
        refine (ih h hB hwrap).imp ?_
        rintro res s' ⟨G', B', h', hB', hf, hres⟩
        refine ⟨G', B', h', hB', hf, fun hok => ?_⟩
        exact .cons hph.symm ⟨hsize, hwrap⟩ (fun e => absurd e htype) (if_neg htype).symm
          (if_neg htype).symm (hres hok)
    · rw [if_pos hlen, spec_pure]
      exact hstop h hB (.refl ..)

end TatakOS.Mem
