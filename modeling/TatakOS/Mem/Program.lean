import TatakOS.Mem.Stack

/-!
# Replacing a program

`exec` as a whole. Its first part makes the memory of the new program and does not look at the
arguments; its second part puts them on the stack and, if they fit, gives the new memory to the
process. Until then nothing that others can see has changed.
-/

namespace TatakOS.Mem

open ProcTable (Slot NPROC ProcState)

variable {H : Type} {cfg : Config} {owns : ℕ → ℕ → Prop} {p : Slot} {r t N : ℕ}
  {argv : List (List UInt8)} {path : List UInt8}

/-! ## The two parts -/

/-- The part of `setupStack` that does not look at the arguments. -/
def stackPages (cfg : Config) (pagetable sz : ℕ) : Vm (ℕ × Bool) := do
  let sz := PGROUNDUP sz
  let sz1 ← uvmalloc cfg pagetable sz (sz + 2 * PGSIZE)
  if sz1 = 0 then return (sz, false)
  else
    uvmclear cfg pagetable (sz1 - 2 * PGSIZE)
    return (sz1, true)

theorem setupStack_eq (pagetable sz : ℕ) : setupStack cfg pagetable sz argv = do
    match ← stackPages cfg pagetable sz with
    | (sz, false) => return (sz, none)
    | (sz, true) => return (sz, ← pushStack cfg pagetable sz argv) := by
  unfold setupStack stackPages
  dsimp only
  rw [bind_assoc]
  refine congrArg _ (funext fun sz1 => ?_)
  split_ifs
  · rfl
  · rw [bind_assoc]
    rfl

/-- What the second part needs to know. -/
structure Start where
  entry : ℕ
  tf : ℕ
  pagetable : ℕ
  sz : ℕ

/-- The first part of `exec`. -/
def execImage (cfg : Config) (p : Slot) (path : List UInt8) (file : Option Image) :
    Kern (Option Start) := do
  fsCall .beginOp
  fsCall (.namei path)
  match file with
  | none =>
    fsCall .endOp
    return none
  | some f =>
    fsCall .ilock
    let bytes := f.readi 0 elfhdrSize
    let elf := ElfHdr.ofBytes bytes
    if bytes.length ≠ elfhdrSize then
      let _ ← execBad cfg none 0 true
      return none
    else if elf.magic ≠ ELF_MAGIC then
      let _ ← execBad cfg none 0 true
      return none
    else
      let tf ← deref ((← get).proc p).trapframe
      match ← vm (procPagetable cfg tf) with
      | none =>
        let _ ← execBad cfg none 0 true
        return none
      | some pagetable =>
        let (sz, ok) ← vm (loadSegments cfg pagetable f elf.phnum (elf.phoff % 2 ^ 32) 0)
        if !ok then
          let _ ← execBad cfg (some pagetable) sz true
          return none
        else
          fsCall .iunlockput
          fsCall .endOp
          match ← vm (stackPages cfg pagetable sz) with
          | (sz, false) =>
            let _ ← execBad cfg (some pagetable) sz false
            return none
          | (sz, true) => return some { entry := elf.entry, tf, pagetable, sz }

/-- The second part of `exec`. -/
def execStack (cfg : Config) (p : Slot) (path : List UInt8) (argv : List (List UInt8))
    (x : Start) : Kern (Option ℕ) := do
  match ← vm (pushStack cfg x.pagetable x.sz argv) with
  | none => execBad cfg (some x.pagetable) x.sz false
  | some sp => execCommit cfg p path x.entry argv.length x.tf x.pagetable x.sz sp

theorem vm_bind {α β : Type} (m : Vm α) (f : α → Vm β) :
    vm (m >>= f) = vm m >>= fun a => vm (f a) := by
  funext s
  show zoom State.phys _ (m >>= f) s = (zoom State.phys _ m >>= fun a => vm (f a)) s
  unfold zoom
  simp only [bind, StateT.bind, Except.bind]
  cases m s.phys <;> rfl

theorem vm_pure {α : Type} (a : α) : vm (pure a) = pure a := rfl

theorem execBad_bind (pagetable : Option ℕ) (sz : ℕ) (locked : Bool) :
    (execBad cfg pagetable sz locked >>= fun _ => pure none) = execBad cfg pagetable sz locked := by
  unfold execBad
  cases locked <;> simp

theorem exec_eq (file : Option Image) :
    exec cfg p path file argv = (execImage cfg p path file >>= fun
      | none => pure none
      | some x => execStack cfg p path argv x) := by
  unfold exec execImage
  rw [bind_assoc]
  refine congrArg _ (funext fun _ => ?_)
  rw [bind_assoc]
  refine congrArg _ (funext fun _ => ?_)
  cases file with
  | none => rfl
  | some f =>
    dsimp only
    rw [bind_assoc]
    refine congrArg _ (funext fun _ => ?_)
    split_ifs with hlen hmagic
    · rw [bind_assoc]
      exact (execBad_bind ..).symm
    · rw [bind_assoc]
      exact (execBad_bind ..).symm
    rw [bind_assoc]
    refine congrArg _ (funext fun s => ?_)
    rw [bind_assoc]
    refine congrArg _ (funext fun tf => ?_)
    rw [bind_assoc]
    refine congrArg _ (funext fun pt => ?_)
    cases pt with
    | none =>
      dsimp only
      rw [bind_assoc]
      exact (execBad_bind ..).symm
    | some pagetable =>
      dsimp only
      rw [bind_assoc]
      refine congrArg _ (funext fun res => ?_)
      obtain ⟨sz, ok⟩ := res
      cases ok with
      | false =>
        dsimp only
        rw [if_pos (by decide), if_pos (by decide), bind_assoc]
        exact (execBad_bind ..).symm
      | true =>
        dsimp only
        rw [if_neg (by decide), if_neg (by decide), bind_assoc]
        refine congrArg _ (funext fun _ => ?_)
        rw [bind_assoc]
        refine congrArg _ (funext fun _ => ?_)
        rw [bind_assoc, setupStack_eq, vm_bind, bind_assoc]
        refine congrArg _ (funext fun res => ?_)
        obtain ⟨sz, ok⟩ := res
        cases ok with
        | false =>
          dsimp only
          rw [vm_pure, pure_bind, bind_assoc]
          exact (execBad_bind ..).symm
        | true =>
          dsimp only
          rw [vm_bind, bind_assoc, pure_bind]
          refine congrArg _ (funext fun sp => ?_)
          rw [vm_pure, pure_bind]
          cases sp <;> rfl

/-! ## The first part -/

section Parts

variable {s s' s1 : State} {ph : Phys} {G G' G1 : Ghost H} {B : Bytes} {sz : ℕ} {E : Panic → Prop}

theorem Space.stackPages (x : H) (h : Space cfg owns t r (pages sz) none B ph G)
    (hB : ZeroFrom B (pages sz)) :
    Spec (stackPages cfg (4096 * r) sz) ph (fun res ph' => ∃ G',
      Frame r Set.univ ∅ ph ph' G G' ∧
      if res.2 then res.1 = 4096 * (pages sz + 2) ∧
        Space cfg owns t r (pages sz + 2) (some (pages sz)) B ph' G'
      else Space cfg owns t r (pages res.1) none B ph' G') Never := by
  have hlt := h.lt
  have hround : PGROUNDUP sz = 4096 * pages sz := pgroundup_eq (by unfold pages at hlt; omega)
  unfold Mem.stackPages
  dsimp only
  rw [spec_bind, hround]
  have h0 : Space cfg owns t r (pages (4096 * pages sz)) none B ph G := by rwa [pages_mul]
  have hB0 : ZeroFrom B (pages (4096 * pages sz)) := by rwa [pages_mul]
  refine (h0.uvmalloc x hB0).imp ?_
  rintro sz1 ph1 ⟨G1, hf1, hres⟩
  have hmax : max (4096 * pages sz) (4096 * pages sz + 2 * PGSIZE) = 4096 * (pages sz + 2) := by
    unfold PGSIZE
    omega
  rw [hmax] at hres
  by_cases hsz1 : sz1 = 0
  · rw [if_pos hsz1, spec_pure]
    refine ⟨G1, hf1, ?_⟩
    obtain ⟨-, h1⟩ | ⟨e, -⟩ := hres
    · exact h1
    · omega
  · obtain ⟨e, -⟩ | ⟨rfl, h1⟩ := hres
    · exact absurd e hsz1
    rw [pages_mul] at h1
    rw [if_neg hsz1, show 4096 * (pages sz + 2) - 2 * PGSIZE = 4096 * pages sz by unfold PGSIZE; omega,
      spec_bind]
    refine (h1.uvmclear (by omega)).imp ?_
    rintro _ ph2 ⟨G2, h2, hf2⟩
    rw [spec_pure]
    exact ⟨G2, hf1.trans hf2, rfl, h2⟩

@[simp] theorem spec_fsCall {c : FsCall} {Q : Unit → State → Prop} :
    Spec (fsCall c) s Q E ↔ Q () { s with fs := s.fs ++ [c] } := spec_modify

/-- What the label `bad` does with the file. -/
def badCalls (locked : Bool) : List FsCall := if locked then [.iunlockput, .endOp] else []

theorem execBad_spec {locked : Bool} (h : MemOk cfg owns s.phys G) (hu : ∀ v, owns r v ↔ v < top)
    (hp : ProcPt cfg G t r (pages sz)) :
    Spec (execBad cfg (some (4096 * r)) sz locked) s (fun res s' => res = none ∧
      Dropped cfg owns r s.phys G s'.phys ∧
      s' = { s with phys := s'.phys, fs := s.fs ++ badCalls locked }) Never := by
  unfold execBad
  rw [spec_bind, spec_vm]
  refine (procFreepagetable_spec h hu hp).imp fun _ ph hd => ?_
  cases locked with
  | false =>
    rw [if_neg (by decide), spec_pure]
    exact ⟨rfl, hd, by simp [badCalls]⟩
  | true =>
    rw [if_pos rfl, spec_bind, spec_fsCall, spec_bind, spec_fsCall, spec_pure]
    exact ⟨rfl, hd, by simp [badCalls]⟩

theorem execBad_null {Q : Option ℕ → State → Prop} :
    Spec (execBad cfg none 0 true) s Q E ↔ Q none { s with fs := s.fs ++ badCalls true } := by
  unfold execBad
  rw [spec_bind, spec_pure, if_pos rfl, spec_bind, spec_fsCall, spec_bind, spec_fsCall,
    spec_pure, List.append_assoc]
  rfl

/-- The memory of process `p`, with the page table `r` and the trapframe in page `t`. -/
structure ProcMem (cfg : Config) (owns : ℕ → ℕ → Prop) (p : Slot) (t r : ℕ) (s : State)
    (G : Ghost H) : Prop where
  ok : MemOk cfg owns s.phys G
  tables : UserTables owns G
  owns : ∀ v, owns r v ↔ v < top
  pagetable : (s.proc p).pagetable = some (4096 * r)
  trapframe : (s.proc p).trapframe = some (4096 * t)
  held : ∃ x, G.own t = .held x
  pt : ProcPt cfg G t r (pages (s.proc p).sz)

/-- What an `exec` that has ended did with the file: the transaction was ended once, and so was the
use of the inode if there was one. -/
def ExecCalls (path : List UInt8) (calls : List FsCall) : Prop :=
  calls = [.beginOp, .namei path, .endOp] ∨
    calls = [.beginOp, .namei path, .ilock, .iunlockput, .endOp]

/-- `exec` has left no trace but calls into the file system. -/
structure Restored (cfg : Config) (owns : ℕ → ℕ → Prop) (path : List UInt8) (s : State)
    (G : Ghost H) (s' : State) : Prop where
  state : ∃ calls, ExecCalls path calls ∧ s' = { s with phys := s'.phys, fs := s.fs ++ calls }
  mem : ∃ G', MemOk cfg owns s'.phys G' ∧ Same s.phys s'.phys G G'

/-- The header that `exec` checks. -/
def Image.header (f : Image) : ElfHdr := ElfHdr.ofBytes (f.data.slice 0 elfhdrSize)

/-- The memory of the new program is ready but for the arguments: the file `f` was loaded, with the
contents `B`. -/
structure Imaged (cfg : Config) (owns : ℕ → ℕ → Prop) (f : Image) (t : ℕ) (path : List UInt8)
    (s : State) (G : Ghost H) (x : Start) (r N : ℕ) (B : Bytes) (s1 : State) (G1 : Ghost H) :
    Prop where
  start : x = ⟨f.header.entry, 4096 * t, 4096 * r, 4096 * (N + 2)⟩
  size : elfhdrSize ≤ f.size
  free : G.own r = .free
  loaded : ∃ sz, N = pages sz ∧
    LoadedAll f (f.header.phoff % 2 ^ 32) f.header.phnum 0 (fun _ => 0) sz B
  zero : ZeroFrom B N
  space : Space cfg owns t r (N + 2) (some N) B s1.phys G1
  frame : Frame r Set.univ ∅ s.phys s1.phys G G1
  state : s1 = { s with
    phys := s1.phys, fs := s.fs ++ [.beginOp, .namei path, .ilock, .iunlockput, .endOp] }

theorem not_live_of_free {ph : Phys} (h : MemOk cfg owns ph G) (hr : G.own r = .free) : ¬ G.live r := by
  intro hl
  have := (h.tree r hl).root
  rw [hr] at this
  cases this

theorem Restored.of_dropped {calls : List FsCall} (h : MemOk cfg owns s.phys G)
    (hr : G.own r = .free) (hf : Frame r Set.univ ∅ s.phys ph G G1)
    (hd : Dropped cfg owns r ph G1 s'.phys) (hcalls : ExecCalls path calls)
    (hs : s' = { s with phys := s'.phys, fs := s.fs ++ calls }) :
    Restored cfg owns path s G s' := by
  obtain ⟨G', h', hdead, hf'⟩ := hd
  exact ⟨⟨calls, hcalls, hs⟩, G', h', .of_frame (hf.trans hf') h h' (not_live_of_free h hr) hdead⟩

theorem ProcPt.space (h : MemOk cfg owns ph G) (hu : ∀ v, owns r v ↔ v < top)
    (hp : ProcPt cfg G t r 0) : Space cfg owns t r (pages 0) none (fun _ => 0) ph G :=
  ⟨h, hu, hp, fun v hv => absurd hv (Nat.not_lt_zero v), fun va hva => absurd hva (Nat.not_lt_zero va)⟩

variable {r0 : ℕ}

theorem execImage_spec [Inhabited H] (h : ProcMem cfg owns p t r0 s G) (file : Option Image) :
    Spec (execImage cfg p path file) s (fun res s1 =>
      match res with
      | none => Restored cfg owns path s G s1
      | some x => ∃ f r N B G1, file = some f ∧ Imaged cfg owns f t path s G x r N B s1 G1)
      Never := by
  unfold execImage
  rw [spec_bind, spec_fsCall, spec_bind, spec_fsCall]
  have hsame : ∀ s1 : State, s1.phys = s.phys →
      ∃ G', MemOk cfg owns s1.phys G' ∧ Same s.phys s1.phys G G' := by
    intro s1 e
    rw [e]
    exact ⟨G, h.ok, .refl ..⟩
  cases file with
  | none =>
    rw [spec_bind, spec_fsCall, spec_pure]
    exact ⟨⟨_, .inl rfl, by simp⟩, hsame _ rfl⟩
  | some f =>
    rw [spec_bind, spec_fsCall]
    by_cases hlen : (f.readi 0 elfhdrSize).length = elfhdrSize
    swap
    · rw [if_pos hlen, spec_bind, execBad_null, spec_pure]
      exact ⟨⟨_, .inr rfl, by simp [badCalls]⟩, hsame _ rfl⟩
    obtain ⟨hsize, -, hread⟩ := f.readi_full hlen (by decide) (by decide) (by decide)
    rw [if_neg (not_not.mpr hlen), hread]
    change Spec (if f.header.magic ≠ ELF_MAGIC then _ else _) _ _ _
    by_cases hmagic : f.header.magic = ELF_MAGIC
    swap
    · rw [if_pos hmagic, spec_bind, execBad_null, spec_pure]
      exact ⟨⟨_, .inr rfl, by simp [badCalls]⟩, hsame _ rfl⟩
    rw [if_neg (not_not.mpr hmagic), spec_bind, spec_get, h.trapframe, spec_bind,
      spec_deref_some, spec_bind, spec_vm]
    obtain ⟨y, hheld⟩ := h.held
    have ht : 4096 * t < 2 ^ 64 := by
      have := h.ok.lt (n := t) (by rw [hheld]; nofun)
      have : PHYSTOP < 2 ^ 64 := by decide
      omega
    refine (procPagetable_spec default h.ok h.tables ht).imp ?_
    rintro res ph1 ⟨G1, h1, hres⟩
    cases res with
    | none =>
      dsimp only
      rw [spec_bind, execBad_null, spec_pure]
      exact ⟨⟨_, .inr rfl, by simp [badCalls]⟩, G1, h1, hres⟩
    | some pa =>
      obtain ⟨r, rfl, hfree, hp1, hf1⟩ := hres
      have hu := h.tables r hfree
      have h1' := hp1.space h1 hu
      dsimp only
      rw [spec_bind, spec_vm]
      refine (loadSegments_spec default h1' (fun _ _ => rfl) (Nat.mod_lt _ (by decide))).imp ?_
      rintro ⟨sz, ok⟩ ph2 ⟨G2, B, h2, hB2, hf2, hok⟩
      cases ok with
      | false =>
        dsimp only
        rw [if_pos (by decide), spec_bind]
        refine (execBad_spec h2.ok hu h2.pt).imp ?_
        rintro _ s3 ⟨-, hd, hs3⟩
        rw [spec_pure]
        refine .of_dropped h.ok hfree (hf1.trans hf2) hd (.inr rfl) ?_
        rw [hs3]
        simp [badCalls]
      | true =>
        dsimp only
        rw [if_neg (by decide), spec_bind, spec_fsCall, spec_bind, spec_fsCall, spec_bind, spec_vm]
        refine (h2.stackPages default hB2).imp ?_
        rintro ⟨sz', ok⟩ ph3 ⟨G3, hf3, hres⟩
        cases ok with
        | false =>
          dsimp only
          rw [spec_bind]
          refine (execBad_spec (show MemOk cfg owns ph3 G3 from hres.ok) hu hres.pt).imp ?_
          rintro _ s4 ⟨-, hd, hs4⟩
          rw [spec_pure]
          refine .of_dropped h.ok hfree ((hf1.trans hf2).trans hf3) hd (.inr rfl) ?_
          rw [hs4]
          simp [badCalls]
        | true =>
          obtain ⟨rfl, h3⟩ := hres
          dsimp only
          rw [spec_pure]
          refine ⟨f, r, pages sz, B, G3, rfl, rfl, ?_, hfree, ⟨sz, rfl, hok rfl⟩, hB2, h3,
            (hf1.trans hf2).trans hf3, ?_⟩
          · omega
          · simp

/-! ## The second part -/

section Commit

variable {g : Option ℕ} {ph' : Phys} {m' : Bytes} {x : H} {n : ℕ}

theorem Space.of_frame {D : Set ℕ} (h : Space cfg owns t r N g B ph G)
    (hf : Frame r0 D ∅ ph ph' G G') (h' : MemOk cfg owns ph' G') (hne : r ≠ r0) :
    Space cfg owns t r N g B ph' G' where
  ok := h'
  owns := h.owns
  pt := h.pt.congr ((hf.live r hne).mpr h.pt.user.live) (hf.leaf r hne)
  flags := by
    rw [hf.leaf r hne]
    exact h.flags
  bytes va hva := by
    rw [← h.bytes va hva]
    unfold userMem
    rw [hf.leaf r hne]
    have hown := h.leaf_own (show va / 4096 < N by omega)
    have hapart : (G.own (G.leaf r (va / 4096) / 1024)).Apart r0 D := by
      rw [hown]
      exact fun e => absurd e hne
    exact hf.bytes _ (Set.notMem_empty _) hapart _ (by omega)

theorem Space.of_held (h : Space cfg owns t r N g B ph G) (hn : G.own n = .held x)
    (hm : ∀ n', n' ≠ n → SamePage ph.mem m' n') :
    Space cfg owns t r N g B { ph with mem := m' } G where
  ok := h.ok.data_held hn hm ph.calls
  owns := h.owns
  pt := h.pt
  flags := h.flags
  bytes va hva := by
    rw [← h.bytes va hva]
    have hown := h.leaf_own (show va / 4096 < N by omega)
    refine hm _ ?_ _ rfl
    intro e
    rw [show (4096 * (G.leaf r (va / 4096) / 1024) + va % 4096) / 4096 =
      G.leaf r (va / 4096) / 1024 by omega] at e
    rw [e, hn] at hown
    cases hown

end Commit

/-- The bytes of the trapframe in page `t` when `exec` is done. -/
def commitRegs (m : Bytes) (t entry sp : ℕ) : Bytes :=
  ((m.set (4096 * t + a1Offset) 8 sp).set (4096 * t + epcOffset) 8 entry).set
    (4096 * t + spOffset) 8 sp

theorem commitRegs_same {m : Bytes} {entry sp n : ℕ} (hn : n ≠ t) :
    SamePage m (commitRegs m t entry sp) n := by
  intro a ha
  unfold commitRegs a1Offset epcOffset spOffset
  rw [Bytes.set_of_lt (by omega), Bytes.set_of_lt (by omega), Bytes.set_of_lt (by omega)]

/-- The registers of the new program. -/
structure Regs (m : Bytes) (t entry sp : ℕ) : Prop where
  a1 : m.get (4096 * t + a1Offset) 8 = sp
  epc : m.get (4096 * t + epcOffset) 8 = entry
  sp : m.get (4096 * t + spOffset) 8 = sp

theorem commitRegs_regs {m : Bytes} {entry sp : ℕ} (he : entry < 2 ^ 64) (hsp : sp < 2 ^ 64) :
    Regs (commitRegs m t entry sp) t entry sp := by
  unfold commitRegs a1Offset epcOffset spOffset
  constructor
  · rw [a1Offset, Bytes.get_set_of_disjoint (by omega), Bytes.get_set_of_disjoint (by omega),
      Bytes.get_set_same]
    exact Nat.mod_eq_of_lt hsp
  · rw [epcOffset, Bytes.get_set_of_disjoint (by omega), Bytes.get_set_same]
    exact Nat.mod_eq_of_lt he
  · rw [spOffset, Bytes.get_set_same]
    exact Nat.mod_eq_of_lt hsp

theorem Regs.congr {m m' : Bytes} {entry sp : ℕ} (h : Regs m t entry sp) (hm : SamePage m m' t) :
    Regs m' t entry sp := by
  have hget : ∀ o ≤ 4088, m'.get (4096 * t + o) 8 = m.get (4096 * t + o) 8 := fun o ho =>
    hm.get (by omega) (by omega)
  constructor
  · rw [hget _ (by decide), h.a1]
  · rw [hget _ (by decide), h.epc]
  · rw [hget _ (by decide), h.sp]

/-- Arguments as `sys_exec` passes them. -/
structure Args (argv : List (List UInt8)) : Prop where
  count : argv.length < MAXARG
  short : ∀ a ∈ argv, a.length < PGSIZE

/-- Process `p` is to run the program in `f`. -/
structure Executed (cfg : Config) (owns : ℕ → ℕ → Prop) (p : Slot) (f : Image) (path : List UInt8)
    (argv : List (List UInt8)) (t r N : ℕ) (B : Bytes) (s s' : State) (G' : Ghost H) : Prop where
  fits : argSpace argv ≤ PGSIZE
  space : Space cfg owns t r (N + 2) (some N) (stackBytes B (4096 * (N + 2)) argv) s'.phys G'
  below : ∀ va < 4096 * (N + 1), stackBytes B (4096 * (N + 2)) argv va = B va
  regs : Regs s'.phys.mem t f.header.entry (4096 * (N + 2) - argSpace argv)
  proc : s'.proc = Function.update s.proc p { s.proc p with
    name := safestrcpy (lastName path) 16, pagetable := some (4096 * r), sz := 4096 * (N + 2) }

/-- The page table `r` has taken the place of `r0`, and page `t` was written to. -/
structure Swapped (r0 r t : ℕ) (s s' : Phys) (G G' : Ghost H) : Prop where
  free : G.own r = .free
  own : ∀ n, ∀ o : Own H, o.Apart r Set.univ → o.Apart r0 Set.univ → (G'.own n = o ↔ G.own n = o)
  bytes : ∀ n, n ≠ t → (G.own n).Apart r Set.univ → (G.own n).Apart r0 Set.univ →
    SamePage s.mem s'.mem n
  leaf : ∀ r', r' ≠ r → r' ≠ r0 → G'.leaf r' = G.leaf r'
  live : ∀ r', r' ≠ r → (G'.live r' ↔ G.live r' ∧ r' ≠ r0)

theorem Swapped.of_frame {ph1 ph2 ph3 ph4 : Phys} {G2 : Ghost H} (hr : G.own r = .free)
    (hf : Frame r Set.univ ∅ ph1 ph2 G G1) (hm : ∀ n, n ≠ t → SamePage ph2.mem ph3.mem n)
    (hf' : Frame r0 Set.univ ∅ ph3 ph4 G1 G2) (hdead : ¬ G2.live r0) (hne : r ≠ r0) :
    Swapped r0 r t ph1 ph4 G G2 where
  free := hr
  own n o ho ho0 := (hf'.own n (Set.notMem_empty n) o ho0).trans (hf.own n (Set.notMem_empty n) o ho)
  bytes n hn ha ha0 := by
    have e : G1.own n = G.own n := (hf.own n (Set.notMem_empty n) _ ha).mpr rfl
    have h' := hf'.bytes n (Set.notMem_empty n) (by rwa [e])
    exact ((hf.bytes n (Set.notMem_empty n) ha).trans (hm n hn)).trans h'
  leaf r' hr' hr0 := (hf'.leaf r' hr0).trans (hf.leaf r' hr')
  live r' hr' := by
    by_cases e : r' = r0
    · subst e
      exact iff_of_false hdead fun h => h.2 rfl
    · rw [hf'.live r' e, hf.live r' hr']
      exact ⟨fun h => ⟨h, e⟩, And.left⟩

theorem execStack_spec {f : Image} {x : Start} (h : ProcMem cfg owns p t r0 s G)
    (ha : Args argv) (hi : Imaged cfg owns f t path s G x r N B s1 G1) :
    Spec (execStack cfg p path argv x) s1 (fun res s' =>
      if argSpace argv ≤ PGSIZE then res = some argv.length ∧
        ∃ G' : Ghost H, Executed cfg owns p f path argv t r N B s s' G' ∧
          Swapped r0 r t s.phys s'.phys G G' ∧
          s' = { s with
            phys := s'.phys, proc := s'.proc
            fs := s.fs ++ [.beginOp, .namei path, .ilock, .iunlockput, .endOp] }
      else res = none ∧ Restored cfg owns path s G s') Never := by
  obtain ⟨y, hheld⟩ := h.held
  have hlt := hi.space.lt
  have hproc : s1.proc = s.proc := by rw [hi.state]
  have hcalls : s1.fs = s.fs ++ [.beginOp, .namei path, .ilock, .iunlockput, .endOp] := by
    rw [hi.state]
  unfold execStack
  rw [hi.start, spec_bind, spec_vm]
  refine (hi.space.pushStack ha.short ha.count).imp ?_
  rintro sp ph2 ⟨B2, h2, hf2, hbelow, hres⟩
  have hf := hi.frame.trans hf2
  by_cases hfit : argSpace argv ≤ PGSIZE
  · rw [if_pos hfit] at hres
    obtain ⟨rfl, rfl⟩ := hres
    -- the old page table and the trapframe are as before
    have hne : r0 ≠ r := by
      rintro rfl
      exact not_live_of_free h.ok hi.free h.pt.user.live
    have ht2 : G1.own t = .held y := (hf.held (Set.notMem_empty t) y).mpr hheld
    have hpt2 : ProcPt cfg G1 t r0 (pages (s.proc p).sz) :=
      h.pt.congr ((hf.live r0 hne).mpr h.pt.user.live) (hf.leaf r0 hne)
    have hregs : ∀ n, n ≠ t → SamePage ph2.mem
        (commitRegs ph2.mem t f.header.entry (4096 * (N + 2) - argSpace argv)) n := fun n hn =>
      commitRegs_same hn
    have h3 := h2.of_held ht2 hregs
    unfold execCommit
    dsimp only
    rw [spec_get_bind, spec_bind, spec_vm, spec_store, spec_bind, spec_setProc,
      spec_bind, spec_vm, spec_store, spec_bind, spec_vm, spec_store, spec_bind, hproc,
      h.pagetable, spec_deref_some, spec_bind, spec_vm]
    refine (procFreepagetable_spec h3.ok h.owns hpt2).imp ?_
    rintro _ ph4 ⟨G4, h4, hdead, hf4⟩
    rw [spec_pure, if_pos hfit]
    have hsame : SamePage (commitRegs ph2.mem t f.header.entry (4096 * (N + 2) - argSpace argv))
        ph4.mem t := hf4.bytes t (Set.notMem_empty t) (by rw [ht2]; trivial)
    have hentry : f.header.entry < 2 ^ 64 := field_lt _ _ 8
    refine ⟨rfl, G4, ⟨hfit, h3.of_frame hf4 h4 hne.symm, hbelow,
      (commitRegs_regs hentry (by omega)).congr hsame, rfl⟩,
      .of_frame hi.free hf hregs hf4 hdead hne.symm, ?_⟩
    rw [hi.state]
  · rw [if_neg hfit] at hres
    subst hres
    dsimp only
    have hpages : ProcPt cfg G1 t r (pages (4096 * (N + 2))) := by
      rw [pages_mul]
      exact h2.pt
    refine (execBad_spec (show MemOk cfg owns ph2 G1 from h2.ok) h2.owns hpages).imp ?_
    rintro res s3 ⟨rfl, hd, hs3⟩
    rw [if_neg hfit]
    refine ⟨rfl, .of_dropped h.ok hi.free hf hd (.inr rfl) ?_⟩
    rw [hs3, hi.state]
    simp [badCalls]

/-- `exec` runs the new program or leaves no trace. It leaves none exactly if the memory of the
program cannot be made or the arguments do not fit. -/
theorem exec_spec [Inhabited H] (h : ProcMem cfg owns p t r0 s G) (ha : Args argv)
    (file : Option Image) :
    Spec (exec cfg p path file argv) s (fun res s' =>
      (res = none ↔ (∃ s1, execImage cfg p path file s = .ok (none, s1)) ∨
        ¬ argSpace argv ≤ PGSIZE) ∧
      match res with
      | none => Restored cfg owns path s G s'
      | some argc => argc = argv.length ∧ ∃ f x r N B s1, ∃ G1 G' : Ghost H, file = some f ∧
          execImage cfg p path file s = .ok (some x, s1) ∧
          Imaged cfg owns f t path s G x r N B s1 G1 ∧
          Executed cfg owns p f path argv t r N B s s' G' ∧
          Swapped r0 r t s.phys s'.phys G G' ∧
          s' = { s with
            phys := s'.phys, proc := s'.proc
            fs := s.fs ++ [.beginOp, .namei path, .ilock, .iunlockput, .endOp] }) Never := by
  rw [exec_eq]
  refine (execImage_spec h file).bind_of_ok fun res s1 hrun hres => ?_
  cases res with
  | none =>
    rw [spec_pure]
    exact ⟨iff_of_true rfl (.inl ⟨s1, hrun⟩), hres⟩
  | some x =>
    obtain ⟨f, r, N, B, G1, rfl, hi⟩ := hres
    have hno : ¬ ∃ s1, execImage cfg p path (some f) s = .ok (none, s1) := by
      rintro ⟨s2, e⟩
      rw [hrun] at e
      cases e
    refine (execStack_spec h ha hi).imp fun res s' hres => ?_
    by_cases hfit : argSpace argv ≤ PGSIZE
    · rw [if_pos hfit] at hres
      obtain ⟨rfl, G', he, hswap, hs'⟩ := hres
      exact ⟨iff_of_false nofun (not_or.mpr ⟨hno, not_not.mpr hfit⟩), rfl, f, x, r, N, B, s1, G1, G',
        rfl, hrun, hi, he, hswap, hs'⟩
    · rw [if_neg hfit] at hres
      obtain ⟨rfl, hr⟩ := hres
      exact ⟨iff_of_true rfl (.inr hfit), hr⟩

end Parts

/-! ## A process that has just been made -/

section Example

/-- The page table that `proc_pagetable` makes out of 12 free pages. -/
def freshTable : Except Panic (Option ℕ × Phys) :=
  procPagetable smallConfig (4096 * (firstPage + 1)) (freePhys 12)

/-- Every process has this page table, and no user pages. -/
def freshState : State where
  phys := match freshTable with
    | .ok (_, ph) => ph
    | .error _ => barePhys
  kernelPagetable := 0
  proc _ := {
    trapframe := some (4096 * (firstPage + 1))
    pagetable := match freshTable with
      | .ok (pt, _) => pt
      | .error _ => none }

theorem fresh_procMem : ∃ r, ∃ G : Ghost Unit,
    ProcMem smallConfig (fun _ v => v < top) initproc (firstPage + 1) r freshState G := by
  have h : MemOk smallConfig (fun _ v => v < top) _ _ := free_memOk (show 12 ≤ 100 by decide)
  have hheld : (freeGhost 12).own (firstPage + 1) = .held () :=
    (withFree_own (.inl (by decide))).trans (bare_held (by decide) (by decide))
  obtain ⟨res, ph, hrun, G, h', hres⟩ :=
    (procPagetable_spec () h (fun _ _ _ => Iff.rfl) (show 4096 * (firstPage + 1) < 2 ^ 64 by
      decide)).exists_ok
  have hsome : yields freshTable = true := by decide +kernel
  have hfresh : freshTable = .ok (res, ph) := hrun
  cases res with
  | none =>
    rw [hfresh] at hsome
    cases hsome
  | some pa =>
    obtain ⟨r, rfl, -, hp, hf⟩ := hres
    have hphys : freshState.phys = ph := by
      unfold freshState
      rw [hfresh]
    refine ⟨r, G, hphys ▸ h', fun _ _ _ => Iff.rfl, fun _ => Iff.rfl, ?_, rfl, ⟨(), ?_⟩, hp⟩
    · unfold freshState
      dsimp only
      rw [hfresh]
    · exact (hf.held (Set.notMem_empty _) ()).mpr hheld

theorem fresh_exec {file : Option Image} {argv : List (List UInt8)}
    (h : yields (execImage smallConfig initproc [] file freshState) = true) (ha : Args argv)
    (hfit : argSpace argv ≤ PGSIZE) :
    ∃ s', exec smallConfig initproc [] file argv freshState = .ok (some argv.length, s') := by
  obtain ⟨x, s1, himage⟩ := exists_of_yields h
  obtain ⟨r, G, hp⟩ := fresh_procMem
  obtain ⟨res, s', hrun, hnone, hres⟩ := (exec_spec hp ha file).exists_ok
  cases res with
  | none =>
    obtain ⟨s2, e⟩ | hno := hnone.mp rfl
    · rw [himage] at e
      cases e
    · exact absurd hfit hno
  | some argc =>
    obtain ⟨rfl, -⟩ := hres
    exact ⟨s', hrun⟩

/-- An ELF header without segments. -/
def emptyProgram : Image where
  size := elfhdrSize
  data := Bytes.set (fun _ => 0) 0 4 ELF_MAGIC

theorem emptyProgram_loaded :
    yields (execImage smallConfig initproc [] (some emptyProgram) freshState) = true := by
  decide +kernel

end Example

end TatakOS.Mem
