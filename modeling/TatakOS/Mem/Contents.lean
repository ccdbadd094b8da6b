import Mathlib.Order.CompletePartialOrder
import TatakOS.Mem.Program

/-!
# What a new program is loaded from

The memory of a program after `exec`, compared with the file: the bytes of its segments, and which
headers get past the checks. The header fields are 64 bits wide, but `exec` reads the file at `uint`
offsets.
-/

namespace TatakOS.Mem

open ProcTable (Slot)

/-! ## Segments -/

/-- The segments to load. -/
def loads (phs : List ProgHdr) : List ProgHdr := phs.filter (·.type = ELF_PROG_LOAD)

/-- The pages that a segment occupies. -/
def ProgHdr.pageSet (ph : ProgHdr) : Set ℕ :=
  {v | ∃ a, ph.vaddr ≤ a ∧ a < ph.vaddr + ph.memsz ∧ a / PGSIZE = v}

/-- The segments that the header of the file tells of. -/
def Image.loads (f : Image) : List ProgHdr := Mem.loads (f.segments f.header.phoff f.header.phnum)

theorem mem_loads {phs : List ProgHdr} {ph : ProgHdr} :
    ph ∈ loads phs ↔ ph ∈ phs ∧ ph.type = ELF_PROG_LOAD := by
  simp [loads]

theorem loads_cons_of_load {ph : ProgHdr} (phs : List ProgHdr) (h : ph.type = ELF_PROG_LOAD) :
    loads (ph :: phs) = ph :: loads phs := List.filter_cons_of_pos (by simpa using h)

theorem loads_cons_of_not_load {ph : ProgHdr} (phs : List ProgHdr) (h : ph.type ≠ ELF_PROG_LOAD) :
    loads (ph :: phs) = loads phs := List.filter_cons_of_neg (by simpa using h)

section Layout

variable {f : Image} {phs : List ProgHdr} {ph : ProgHdr} {B : Bytes} {va sz : ℕ}

theorem le_imageSize (phs : List ProgHdr) (sz : ℕ) : sz ≤ imageSize phs sz := by
  induction phs generalizing sz with
  | nil => exact le_rfl
  | cons ph phs ih =>
    refine le_trans ?_ (ih _)
    split
    · exact le_max_left ..
    · exact le_rfl

theorem end_le_imageSize (h : ph ∈ loads phs) : ph.vaddr + ph.memsz ≤ imageSize phs sz := by
  induction phs generalizing sz with
  | nil => cases h
  | cons x phs ih =>
    rw [imageSize]
    by_cases hx : x.type = ELF_PROG_LOAD
    · rw [loads_cons_of_load phs hx] at h
      obtain rfl | h := List.mem_cons.mp h
      · rw [if_pos hx]
        exact (le_max_right ..).trans (le_imageSize ..)
      · exact ih h
    · rw [loads_cons_of_not_load phs hx] at h
      exact ih h

/-- The address is in the part of a segment that comes from the file. -/
def ProgHdr.Covers (ph : ProgHdr) (va : ℕ) : Prop := ph.vaddr ≤ va ∧ va < ph.vaddr + ph.filesz

theorem blit_slice_of_covers (h : ph.Covers va) (o : ℕ) :
    B.blit ph.vaddr (f.data.slice o ph.filesz) va = f.data (o + (va - ph.vaddr)) := by
  have hlt : va - ph.vaddr < ph.filesz := by
    have := h.1
    have := h.2
    omega
  have hin : ph.vaddr ≤ va ∧ va < ph.vaddr + (f.data.slice o ph.filesz).length := by
    rw [slice_length]
    exact h
  unfold Bytes.blit
  rw [if_pos hin, List.getD_eq_getElem?_getD, slice_getElem? _ _ hlt, Option.getD_some]

theorem blit_slice_of_not_covers (h : ¬ ph.Covers va) (o : ℕ) :
    B.blit ph.vaddr (f.data.slice o ph.filesz) va = B va := by
  unfold Bytes.blit
  rw [slice_length]
  exact if_neg h

theorem imageBytes_of_not_covers (h : ∀ ph ∈ loads phs, ¬ ph.Covers va) :
    imageBytes f phs B va = B va := by
  induction phs generalizing B with
  | nil => rfl
  | cons x phs ih =>
    rw [imageBytes]
    by_cases hx : x.type = ELF_PROG_LOAD
    · rw [loads_cons_of_load phs hx, List.forall_mem_cons] at h
      rw [ih h.2, if_pos hx, blit_slice_of_not_covers h.1]
    · rw [loads_cons_of_not_load phs hx] at h
      rw [ih h, if_neg hx]

theorem not_covers_of_disjoint {ph' : ProgHdr} (hd : Disjoint ph.pageSet ph'.pageSet)
    (h : ph.filesz ≤ ph.memsz) (h' : ph'.filesz ≤ ph'.memsz) (hva : ph.Covers va) :
    ¬ ph'.Covers va := by
  rintro ⟨hle, hlt⟩
  exact Set.disjoint_left.mp hd ⟨va, hva.1, hva.2.trans_le (by omega), rfl⟩ ⟨va, hle, by omega, rfl⟩

/-- Segments in different pages do not get in each other's way. -/
theorem imageBytes_of_covers (hsize : ∀ ph ∈ loads phs, ph.filesz ≤ ph.memsz)
    (hd : (loads phs).Pairwise fun x y => Disjoint x.pageSet y.pageSet) (hph : ph ∈ loads phs)
    (hva : ph.Covers va) :
    imageBytes f phs B va = f.data (ph.off % 2 ^ 32 + (va - ph.vaddr)) := by
  induction phs generalizing B with
  | nil => cases hph
  | cons x phs ih =>
    rw [imageBytes]
    by_cases hx : x.type = ELF_PROG_LOAD
    · rw [loads_cons_of_load phs hx] at hsize hd hph
      rw [List.forall_mem_cons] at hsize
      rw [List.pairwise_cons] at hd
      obtain rfl | hph := List.mem_cons.mp hph
      · -- the segments after it leave these bytes alone
        have hno : ∀ y ∈ loads phs, ¬ y.Covers va := fun y hy =>
          not_covers_of_disjoint (hd.1 y hy) hsize.1 (hsize.2 y hy) hva
        rw [imageBytes_of_not_covers hno, if_pos hx, blit_slice_of_covers hva]
      · exact ih hsize.2 hd.2 hph
    · rw [loads_cons_of_not_load phs hx] at hsize hd hph
      exact ih hsize hd hph

theorem imageSize_loads (phs : List ProgHdr) (sz : ℕ) :
    imageSize (loads phs) sz = imageSize phs sz := by
  induction phs generalizing sz with
  | nil => rfl
  | cons x phs ih =>
    by_cases hx : x.type = ELF_PROG_LOAD
    · rw [loads_cons_of_load phs hx, imageSize, imageSize, ih]
    · rw [loads_cons_of_not_load phs hx, imageSize, if_neg hx, ih]

end Layout

/-! ## The memory of the program -/

/-- The headers and the segments are inside of the file, whose size is a `uint`, and no two segments
share a page. -/
structure Image.Proper (f : Image) : Prop where
  size : f.size < 2 ^ 32
  table : 0 < f.header.phnum → f.header.phoff + proghdrSize * f.header.phnum ≤ f.size
  data : ∀ ph ∈ f.loads, 0 < ph.filesz → ph.off + ph.filesz ≤ f.size
  apart : f.loads.Pairwise fun x y => Disjoint x.pageSet y.pageSet

/-- The program of size `sz` that the page table `pt` maps is the one in `f`, with a guard page and
a page of stack behind it. -/
structure FileLoaded (cfg : Config) (f : Image) (s : Phys) (pt sz : ℕ) : Prop where
  size : sz = PGROUNDUP (imageSize f.loads 0) + 2 * PGSIZE
  fits : ∀ ph ∈ f.loads, ph.vaddr + ph.memsz ≤ sz - 2 * PGSIZE
  file : ∀ ph ∈ f.loads, ∀ i < ph.filesz, byteAt cfg s pt (ph.vaddr + i) = f.data (ph.off + i)
  bss : ∀ ph ∈ f.loads, ∀ i, ph.filesz ≤ i → i < ph.memsz → byteAt cfg s pt (ph.vaddr + i) = 0
  zero : ∀ va < sz - 2 * PGSIZE, (∀ ph ∈ f.loads, ¬ ph.Covers va) → byteAt cfg s pt va = 0
  guard : ∀ va, sz - 2 * PGSIZE ≤ va → va < sz - PGSIZE →
    pte cfg s pt va &&& PTE_V ≠ 0 ∧ pte cfg s pt va &&& PTE_U = 0
  user : ∀ va < sz, va < sz - 2 * PGSIZE ∨ sz - PGSIZE ≤ va →
    pte cfg s pt va &&& PTE_V ≠ 0 ∧ pte cfg s pt va &&& PTE_U ≠ 0

/-- `exec` finds the segments where the header says if that is a `uint`. -/
theorem Image.segments_narrow {f : Image} (h : 0 < f.header.phnum → f.header.phoff < 2 ^ 32) :
    f.segments (f.header.phoff % 2 ^ 32) f.header.phnum =
      f.segments f.header.phoff f.header.phnum := by
  obtain h0 | h0 := Nat.eq_zero_or_pos f.header.phnum
  · unfold Image.segments
    rw [h0, List.range_zero, List.map_nil, List.map_nil]
  · rw [Nat.mod_eq_of_lt (h h0)]

theorem Image.Proper.narrow {f : Image} (hf : f.Proper) (h : 0 < f.header.phnum) :
    f.header.phoff < 2 ^ 32 := by
  have := hf.table h
  have := hf.size
  omega

section Loaded

variable {H : Type} {cfg : Config} {owns : ℕ → ℕ → Prop} {p : Slot} {f : Image} {r t N sz : ℕ}
  {argv : List (List UInt8)} {path : List UInt8} {s s' s1 : State} {G G' G1 : Ghost H} {B : Bytes}

theorem Image.Proper.bytes (hf : f.Proper)
    (hl : LoadedAll f (f.header.phoff % 2 ^ 32) f.header.phnum 0 (fun _ => 0) sz B) :
    sz = imageSize f.loads 0 ∧ (∀ ph ∈ f.loads, ph.filesz ≤ ph.memsz) ∧
    (∀ ph ∈ f.loads, ∀ i < ph.filesz, B (ph.vaddr + i) = f.data (ph.off + i)) ∧
    ∀ va, (∀ ph ∈ f.loads, ¬ ph.Covers va) → B va = 0 := by
  have hseg := Image.segments_narrow hf.narrow
  have hsize : ∀ ph ∈ f.loads, ph.filesz ≤ ph.memsz := by
    intro ph hph
    obtain ⟨hmem, hload⟩ := mem_loads.mp hph
    rw [← hseg] at hmem
    exact (hl.ok ph hmem hload).filesz
  refine ⟨?_, hsize, fun ph hph i hi => ?_, fun va hva => ?_⟩
  · rw [hl.size, hseg]
    exact (imageSize_loads ..).symm
  · have hoff : ph.off < 2 ^ 32 := by
      have := hf.data ph hph (by omega)
      have := hf.size
      omega
    rw [hl.bytes, hseg, imageBytes_of_covers hsize hf.apart hph ⟨by omega, by omega⟩,
      Nat.mod_eq_of_lt hoff, Nat.add_sub_cancel_left]
  · rw [hl.bytes, hseg]
    exact imageBytes_of_not_covers hva

section

variable (he : Executed cfg owns p f path argv t r N B s s' G')
include he

theorem Executed.byteAt_below {va : ℕ} (hva : va < 4096 * (N + 1)) :
    byteAt cfg s'.phys (4096 * r) va = B va := by
  have hlt := he.space.lt
  rw [he.space.ok.byteAt_eq he.space.pt.user.live (by unfold MAXVA; omega)]
  exact (he.space.bytes va (by omega)).trans (he.below va hva)

theorem Executed.pte_flags {va : ℕ} (hva : va < 4096 * (N + 2)) :
    pte cfg s'.phys (4096 * r) va % 1024 = if N = va / 4096 then 15 else 31 := by
  have hlt := he.space.lt
  rw [he.space.ok.pte_eq he.space.pt.user.live (by unfold MAXVA; omega),
    he.space.flags _ (by omega)]
  simp only [Option.some_inj]

theorem Executed.fileLoaded {x : Start} (hi : Imaged cfg owns f t path s G x r N B s1 G1)
    (hf : f.Proper) : FileLoaded cfg f s'.phys (4096 * r) (4096 * (N + 2)) := by
  have hlt := he.space.lt
  obtain ⟨sz, hN, hl⟩ := hi.loaded
  obtain ⟨hsz, hfilesz, hfile, hzero⟩ := hf.bytes hl
  have hguard : 4096 * (N + 2) - 2 * PGSIZE = 4096 * N := by
    unfold PGSIZE
    omega
  have hstack : 4096 * (N + 2) - PGSIZE = 4096 * (N + 1) := by
    unfold PGSIZE
    omega
  have hpages : sz ≤ 4096 * N := by
    unfold pages at hN
    omega
  have hfits : ∀ ph ∈ f.loads, ph.vaddr + ph.memsz ≤ 4096 * N := by
    intro ph hph
    refine le_trans ?_ hpages
    rw [hsz, show imageSize f.loads 0 = _ from imageSize_loads ..]
    exact end_le_imageSize hph
  constructor
  · rw [← hsz, pgroundup_eq (by omega), ← hN]
    unfold PGSIZE
    omega
  · rwa [hguard]
  · intro ph hph i hi
    have := hfits ph hph
    have := hfilesz ph hph
    rw [he.byteAt_below (by omega), hfile ph hph i hi]
  · intro ph hph i hfi him
    have := hfits ph hph
    rw [he.byteAt_below (by omega)]
    refine hzero _ fun ph' hph' hc => ?_
    -- another segment would be in a page of this one
    by_cases e : ph' = ph
    · subst e
      have := hc.2
      omega
    · have : Std.Symm fun x y : ProgHdr => Disjoint x.pageSet y.pageSet := ⟨fun _ _ hd => hd.symm⟩
      have hd := hf.apart.forall hph' hph e
      have := hfilesz ph' hph'
      exact Set.disjoint_left.mp hd ⟨_, hc.1, hc.2.trans_le (by omega), rfl⟩
        ⟨_, by omega, by omega, rfl⟩
  · intro va hva hno
    rw [hguard] at hva
    rw [he.byteAt_below (by omega)]
    exact hzero va hno
  · intro va hge hva
    rw [hguard] at hge
    rw [hstack] at hva
    have hflags := he.pte_flags (show va < 4096 * (N + 2) by omega)
    rw [if_pos (by omega)] at hflags
    rw [and_pte_v, and_pte_u]
    omega
  · intro va hva hne
    rw [hguard, hstack] at hne
    have hflags := he.pte_flags hva
    rw [if_neg (by omega)] at hflags
    rw [and_pte_v, and_pte_u]
    omega

end

/-- A program that `exec` has started is the one in the file. It starts at the entry point, with its
stack pointer in the last page. -/
theorem exec_loads [Inhabited H] {r0 argc : ℕ} (h : ProcMem cfg owns p t r0 s G) (ha : Args argv)
    (hf : f.Proper) (hrun : exec cfg p path (some f) argv s = .ok (some argc, s')) :
    ∃ pt, (s'.proc p).pagetable = some pt ∧ FileLoaded cfg f s'.phys pt (s'.proc p).sz ∧
      (s'.proc p).trapframe = some (4096 * t) ∧
      s'.phys.mem.get (4096 * t + epcOffset) 8 = f.header.entry ∧
      (s'.proc p).sz - PGSIZE ≤ s'.phys.mem.get (4096 * t + spOffset) 8 ∧
      s'.phys.mem.get (4096 * t + spOffset) 8 < (s'.proc p).sz := by
  obtain ⟨-, -, f', x, r, N, B, s1, G1, G', e, -, hi, he, -⟩ := (exec_spec h ha (some f)).of_ok hrun
  obtain rfl := Option.some.inj e
  have hproc := congrFun he.proc p
  rw [Function.update_self] at hproc
  have hspace : 0 < argSpace argv ∧ argSpace argv ≤ PGSIZE := by
    refine ⟨?_, he.fits⟩
    have := le_up16 (8 * (argv.length + 1))
    unfold argSpace
    omega
  rw [hproc, he.regs.epc, he.regs.sp]
  refine ⟨4096 * r, rfl, he.fileLoaded hi hf, h.trapframe, rfl, ?_⟩
  unfold PGSIZE at *
  dsimp only
  omega

/-! ## Headers -/

/-- The headers are inside of the file, with their fields taken as numbers, and the segments that
have contents are good ones for a program of size `sz`. -/
structure HeadersInside (f : Image) (sz : ℕ) : Prop where
  table : 0 < f.header.phnum → f.header.phoff + proghdrSize * f.header.phnum ≤ f.size
  data : ∀ ph ∈ f.loads, 0 < ph.filesz → ph.off + ph.filesz ≤ f.size
  memsz : ∀ ph ∈ f.loads, 0 < ph.filesz → ph.filesz ≤ ph.memsz
  aligned : ∀ ph ∈ f.loads, 0 < ph.filesz → ph.vaddr % PGSIZE = 0
  fits : ∀ ph ∈ f.loads, 0 < ph.filesz → ph.vaddr + ph.memsz ≤ sz

/-- The offsets in the headers are `uint`s. -/
structure Image.Narrow (f : Image) : Prop where
  phoff : 0 < f.header.phnum → f.header.phoff < 2 ^ 32
  off : ∀ ph ∈ f.loads, 0 < ph.filesz → ph.off < 2 ^ 32

/-- What `exec` checks is the low half of the offsets. -/
theorem LoadedAll.headersInside
    (hl : LoadedAll f (f.header.phoff % 2 ^ 32) f.header.phnum 0 (fun _ => 0) sz B)
    (hn : f.Narrow) : HeadersInside f sz := by
  have hseg := Image.segments_narrow hn.phoff
  have hok : ∀ ph ∈ f.loads, ph.Ok f := by
    intro ph hph
    obtain ⟨hmem, hload⟩ := mem_loads.mp hph
    rw [← hseg] at hmem
    exact hl.ok ph hmem hload
  constructor
  · intro h0
    have := (hl.inside h0).1
    rwa [Nat.mod_eq_of_lt (hn.phoff h0)] at this
  · intro ph hph h0
    have := ((hok ph hph).inside h0).1
    rwa [Nat.mod_eq_of_lt (hn.off ph hph h0)] at this
  · exact fun ph hph _ => (hok ph hph).filesz
  · exact fun ph hph _ => (hok ph hph).aligned
  · intro ph hph _
    rw [hl.size, hseg]
    exact end_le_imageSize hph

theorem HeadersInside.narrow (h : HeadersInside f sz) (hsize : f.size < 2 ^ 32) : f.Narrow := by
  constructor
  · intro h0
    have := h.table h0
    omega
  · intro ph hph h0
    have := h.data ph hph h0
    omega

theorem HeadersInside.mono {sz' : ℕ} (h : HeadersInside f sz) (hle : sz ≤ sz') :
    HeadersInside f sz' :=
  { h with fits := fun ph hph h0 => (h.fits ph hph h0).trans hle }

/-- The headers of a program that `exec` has started are inside of the file, unless an offset in them
does not fit into a `uint`. -/
theorem exec_headers_iff [Inhabited H] {r0 argc : ℕ} (h : ProcMem cfg owns p t r0 s G)
    (ha : Args argv) (hsize : f.size < 2 ^ 32)
    (hrun : exec cfg p path (some f) argv s = .ok (some argc, s')) :
    HeadersInside f (s'.proc p).sz ↔ f.Narrow := by
  obtain ⟨-, -, f', x, r, N, B, s1, G1, G', e, -, hi, he, -⟩ := (exec_spec h ha (some f)).of_ok hrun
  obtain rfl := Option.some.inj e
  obtain ⟨sz, hN, hl⟩ := hi.loaded
  refine ⟨fun hh => hh.narrow hsize, fun hn => (hl.headersInside hn).mono ?_⟩
  rw [he.proc, Function.update_self]
  show sz ≤ 4096 * (N + 2)
  unfold pages at hN
  omega

end Loaded

/-! ## Two files -/

/-- A file with one segment of three bytes, for five bytes of memory. -/
def abcProgram : Image where
  size := 123
  data := ((((((((Bytes.set (fun _ => 0) 0 4 ELF_MAGIC).set 32 8 64).set 56 2 1).set 64 4
    ELF_PROG_LOAD).set 72 8 120).set 96 8 3).set 104 8 5).blit 120 [97, 98, 99])

/-- The header of this file is followed by one program header, which is not for a segment to load.
But it says that the program header is much further behind. -/
def farProgram : Image where
  size := 120
  data := ((Bytes.set (fun _ => 0) 0 4 ELF_MAGIC).set 32 8 (2 ^ 32 + 64)).set 56 2 1

theorem abcProgram_header : abcProgram.header.phoff = 64 ∧ abcProgram.header.phnum = 1 := by
  decide +kernel

theorem abcProgram_loads : abcProgram.loads = [⟨ELF_PROG_LOAD, 120, 0, 3, 5⟩] := by
  rfl

theorem abcProgram_proper : abcProgram.Proper := by
  obtain ⟨hphoff, hphnum⟩ := abcProgram_header
  constructor
  · decide
  · rw [hphoff, hphnum]
    decide
  · rw [abcProgram_loads]
    decide
  · rw [abcProgram_loads]
    exact List.pairwise_singleton ..

theorem abcProgram_loaded :
    yields (execImage smallConfig initproc [] (some abcProgram) freshState) = true := by
  decide +kernel

theorem exec_loads_abc :
    ∃ s', exec smallConfig initproc [] (some abcProgram) [] freshState = .ok (some 0, s') ∧
      ∃ pt, FileLoaded smallConfig abcProgram s'.phys pt (s'.proc initproc).sz := by
  obtain ⟨r, G, h⟩ := fresh_procMem
  have ha : Args [] := ⟨by decide, by decide⟩
  obtain ⟨s', hrun⟩ := fresh_exec abcProgram_loaded ha (by decide)
  obtain ⟨pt, -, hpt, -⟩ := exec_loads h ha abcProgram_proper hrun
  exact ⟨s', hrun, pt, hpt⟩

theorem farProgram_header :
    farProgram.header.phoff = 2 ^ 32 + 64 ∧ farProgram.header.phnum = 1 := by
  decide +kernel

theorem farProgram_loaded :
    yields (execImage smallConfig initproc [] (some farProgram) freshState) = true := by
  decide +kernel

/-- `exec` takes a program header that is not there. -/
theorem exec_headers_outside :
    ∃ s', exec smallConfig initproc [] (some farProgram) [] freshState = .ok (some 0, s') ∧
      ¬ HeadersInside farProgram (s'.proc initproc).sz := by
  have ha : Args [] := ⟨by decide, by decide⟩
  obtain ⟨s', hrun⟩ := fresh_exec farProgram_loaded ha (by decide)
  obtain ⟨hphoff, hphnum⟩ := farProgram_header
  refine ⟨s', hrun, fun hh => ?_⟩
  have htable := hh.table
  rw [hphoff, hphnum] at htable
  exact absurd (htable (by decide)) (by decide)

theorem exec_headers_iff_abc :
    ∃ s', exec smallConfig initproc [] (some abcProgram) [] freshState = .ok (some 0, s') ∧
      (HeadersInside abcProgram (s'.proc initproc).sz ↔ abcProgram.Narrow) := by
  obtain ⟨r, G, h⟩ := fresh_procMem
  have ha : Args [] := ⟨by decide, by decide⟩
  obtain ⟨s', hrun⟩ := fresh_exec abcProgram_loaded ha (by decide)
  exact ⟨s', hrun, exec_headers_iff h ha (by decide) hrun⟩

end TatakOS.Mem
