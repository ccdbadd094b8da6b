import TatakOS.Mem.Program

/-!
# `sys_exec`

The pages that `sys_exec` takes for the arguments, and gives back. An `exec` that fails leaves the
process and the memory of all processes as they were.
-/

namespace TatakOS.Mem

open Function
open ProcTable (Slot)

variable {H : Type} {cfg : Config} {owns : ℕ → ℕ → Prop} {s s' s1 : Phys} {G G' G1 : Ghost H}
  {n r : ℕ} {ns ns' : List ℕ} {x : H}

/-! ## Pages taken and given back -/

/-- The pages `ns` are now `o`. -/
structure Given (o : Own H) (ns : List ℕ) (s s' : Phys) (G G' : Ghost H) : Prop where
  own : ∀ n, G'.own n = if n ∈ ns then o else G.own n
  leaf : G'.leaf = G.leaf
  live : G'.live = G.live
  bytes : ∀ n, n ∉ ns → SamePage s.mem s'.mem n

/-- The pages `ns` were free and are now held by `x`. -/
structure Taken (x : H) (ns : List ℕ) (s s' : Phys) (G G' : Ghost H) : Prop
    extends Given (.held x) ns s s' G G' where
  nodup : ns.Nodup
  free : ∀ n ∈ ns, G.own n = .free

theorem Given.nil {o : Own H} (hm : s'.mem = s.mem) (G : Ghost H) : Given o [] s s' G G where
  own _ := (if_neg List.not_mem_nil).symm
  leaf := rfl
  live := rfl
  bytes n _ := hm ▸ .refl _ n

theorem Given.cons {o : Own H} (hm : ∀ n', n' ≠ n → SamePage s.mem s1.mem n')
    (h : Given o ns s1 s' (G.give n o) G') : Given o (n :: ns) s s' G G' := by
  refine ⟨fun n' => ?_, h.leaf, h.live, fun n' hn' => ?_⟩
  · rw [h.own n', give_eq]
    by_cases e : n' = n
    · simp [e]
    · simp [e]
  · obtain ⟨hne, hn'⟩ := not_or.mp (mt List.mem_cons.mpr hn')
    exact (hm n' hne).trans (h.bytes n' hn')

theorem Taken.nil (x : H) (hm : s'.mem = s.mem) (G : Ghost H) : Taken x [] s s' G G where
  toGiven := .nil hm G
  nodup := List.nodup_nil
  free _ hn := absurd hn List.not_mem_nil

theorem Taken.cons (hn : G.own n = .free) (hm : ∀ n', n' ≠ n → SamePage s.mem s1.mem n')
    (h : Taken x ns s1 s' (G.give n (.held x)) G') : Taken x (n :: ns) s s' G G' := by
  have hnot : n ∉ ns := by
    intro hmem
    have := h.free n hmem
    rw [give_self] at this
    cases this
  refine ⟨.cons hm h.toGiven, List.nodup_cons.mpr ⟨hnot, h.nodup⟩, fun n' hn' => ?_⟩
  obtain rfl | hn' := List.mem_cons.mp hn'
  · exact hn
  · have hne : n' ≠ n := fun e => hnot (e ▸ hn')
    have := h.free n' hn'
    rwa [give_ne _ _ hne] at this

/-- What was taken is given back, and in between memory was put back in order. -/
theorem Taken.freed {s2 : Phys} {G2 : Ghost H} (ht : Taken x ns s s1 G G1)
    (hs : Same s1 s2 G1 G2) (hf : Given .free ns s2 s' G2 G') : Same s s' G G' where
  own := by
    funext n
    rw [hf.own, hs.own, ht.own]
    split
    · rw [ht.free n ‹_›]
    · rfl
  live r := by rw [hf.live, hs.live, ht.live]
  leaf r hr := by rw [hf.leaf, hs.leaf r (by rwa [ht.live]), ht.leaf]
  bytes n hn := by
    have hnot : n ∉ ns := fun hmem => hn (ht.free n hmem)
    have hn1 : G1.own n ≠ .free := by rwa [ht.own, if_neg hnot]
    exact ((ht.bytes n hnot).trans (hs.bytes n hn1)).trans (hf.bytes n hnot)

theorem freeArgs_spec (h : MemOk cfg owns s G) (hnd : ns.Nodup)
    (hns : ∀ n ∈ ns, G.own n = .held x) :
    Spec (freeArgs cfg (ns.map (4096 * ·))) s (fun _ s' => ∃ G', MemOk cfg owns s' G' ∧
      Given .free ns s s' G G') Never := by
  induction ns generalizing s G with
  | nil =>
    rw [List.map_nil, freeArgs, spec_pure]
    exact ⟨G, h, .nil rfl G⟩
  | cons n ns ih =>
    obtain ⟨hnot, hnd⟩ := List.nodup_cons.mp hnd
    obtain ⟨hn, hns⟩ := List.forall_mem_cons.mp hns
    rw [List.map_cons, freeArgs, spec_bind, spec_of_eq_ok (kfree_eq h (by rw [hn]; exact nofun))]
    have hheld : ∀ n' ∈ ns, (G.give n .free).own n' = .held x := by
      intro n' hn'
      have hne : n' ≠ n := fun e => hnot (e ▸ hn')
      rw [give_ne _ _ hne]
      exact hns n' hn'
    refine (ih (h.free_held hn) hnd hheld).imp ?_
    rintro _ s' ⟨G', h', hf⟩
    exact ⟨G', h', .cons (fun n' hne => freed_same s hne) hf⟩

/-! ## The arguments -/

theorem samePage_blit {m : Bytes} {l : List UInt8} {n' : ℕ} (hl : l.length ≤ 4096)
    (hne : n' ≠ n) : SamePage m (m.blit (4096 * n) l) n' := by
  intro a ha
  exact if_neg (by omega)

variable {L : ℕ → ℕ}

theorem fetchaddr_spec {own : ℕ → Own H} (h : Tree s.mem own r L) (sz addr : ℕ) :
    Spec (fetchaddr cfg (4096 * r) sz addr) s (fun _ s' => s' = s) Never := by
  unfold fetchaddr
  by_cases hsz : sz ≤ addr ∨ sz < addr + 8
  · rw [if_pos hsz, spec_pure]
  · rw [if_neg hsz, spec_bind, spec_of_eq_ok (copyin_eq h addr 8)]
    cases readUser s.mem L addr 8 <;> exact spec_pure.mpr rfl

theorem Scanned.dst_length_le {m : Bytes} {va max k : ℕ} {f : Fetched}
    (h : Scanned m L va max f k) : f.dst.length ≤ max := by
  have := h.le
  obtain ⟨-, hk, hlen, -⟩ | ⟨-, hlen, -⟩ := h.outcome <;> omega

theorem fetchArgs_spec {sz uargv fuel i : ℕ} (x : H) (h : MemOk cfg owns s G) (hr : G.live r) :
    Spec (fetchArgs cfg (4096 * r) sz uargv fuel i) s (fun res s' => ∃ ns G',
      res.1 = ns.map (4096 * ·) ∧ MemOk cfg owns s' G' ∧ Taken x ns s s' G G' ∧
      ∀ args, res.2 = some args → args.length < fuel ∧ ∀ a ∈ args, a.length < PGSIZE) Never := by
  induction fuel generalizing s G i with
  | zero =>
    rw [fetchArgs, spec_pure]
    exact ⟨[], G, rfl, h, .nil x rfl G, nofun⟩
  | succ fuel ih =>
    rw [fetchArgs, spec_bind]
    refine (fetchaddr_spec (h.tree r hr) sz _).imp ?_
    rintro (_ | uarg) _ rfl
    · rw [spec_pure]
      exact ⟨[], G, rfl, h, .nil x rfl G, nofun⟩
    dsimp only
    by_cases h0 : uarg = 0
    · rw [if_pos h0, spec_pure]
      refine ⟨[], G, rfl, h, .nil x rfl G, ?_⟩
      rintro _ ⟨⟩
      exact ⟨Nat.succ_pos _, nofun⟩
    rw [if_neg h0, spec_bind]
    refine (kalloc_spec h).imp ?_
    rintro (_ | page) s1 h1
    · rw [spec_pure]
      exact ⟨[], G, rfl, h1.1, .nil x h1.2 G, nofun⟩
    · obtain ⟨n, rfl, hfree, h1, hm⟩ := h1
      obtain ⟨f, k, e, hscan⟩ :
          ∃ f k, copyinstr cfg (4096 * r) uarg PGSIZE s1 = .ok (f, s1) ∧
            Scanned s1.mem ((G.give n (.held x)).leaf r) uarg PGSIZE f k :=
        copyinstr_eq ((h1 x).tree r hr) uarg PGSIZE
      have hlen : f.dst.length ≤ 4096 := hscan.dst_length_le
      have hput : ∀ n', n' ≠ n → SamePage s1.mem (s1.mem.blit (4096 * n) f.dst) n' := fun n' hne =>
        samePage_blit hlen hne
      have h2 := (h1 x).data_held (give_self ..) hput s1.calls
      have hm2 : ∀ n', n' ≠ n → SamePage _ (s1.mem.blit (4096 * n) f.dst) n' := fun n' hne =>
        (hm n' hne).trans (hput n' hne)
      dsimp only
      rw [spec_bind, spec_of_eq_ok e, spec_bind, spec_put]
      cases hok : f.ok with
      | false =>
        rw [if_pos (by decide), spec_pure]
        exact ⟨[n], _, rfl, h2, .cons hfree hm2 (.nil x rfl _), nofun⟩
      | true =>
        rw [if_neg (by decide), spec_bind]
        refine (ih h2 hr).imp ?_
        rintro ⟨ps, args⟩ s' ⟨ns, G', rfl, h', ht, hargs⟩
        rw [spec_pure]
        refine ⟨n :: ns, G', rfl, h', .cons hfree hm2 ht, fun args' hargs' => ?_⟩
        obtain ⟨l, rfl, rfl⟩ := Option.map_eq_some_iff.mp hargs'
        obtain ⟨hcount, hshort⟩ := hargs l rfl
        refine ⟨Nat.succ_lt_succ hcount, List.forall_mem_cons.mpr ⟨?_, hshort⟩⟩
        have hk := (hscan.isString hok).1
        rw [List.length_take, hscan.strlen_eq hok]
        omega

theorem fetchstr_spec {own : ℕ → Own H} (h : Tree s.mem own r L) (addr max : ℕ) :
    Spec (fetchstr cfg (4096 * r) addr max) s (fun _ s' => s' = s) Never := by
  obtain ⟨f, k, e, -⟩ :
      ∃ f k, copyinstr cfg (4096 * r) addr max s = .ok (f, s) ∧ Scanned s.mem L addr max f k :=
    copyinstr_eq h addr max
  unfold fetchstr
  rw [spec_bind, spec_of_eq_ok e]
  split <;> exact spec_pure.mpr rfl

/-! ## The system call -/

section Call

variable {s s' : State} {p : Slot} {t : ℕ}

/-- The arguments and the pages they are in. -/
def Proc.withArgs (y : Proc) (ns : List ℕ) (argv : List (List UInt8)) : Proc :=
  { y with args := some (ns.map (4096 * ·), argv) }

theorem sysExecArgs_spec {path uargv : ℕ} (x : H) (h : ProcMem cfg owns p t r s G) :
    Spec (sysExecArgs cfg p path uargv) s (fun res s' => ∃ G', MemOk cfg owns s'.phys G' ∧
      match res with
      | none => Same s.phys s'.phys G G' ∧ s' = { s with phys := s'.phys }
      | some _ => ∃ ns argv, Args argv ∧ Taken x ns s.phys s'.phys G G' ∧ s' = { s with
          phys := s'.phys, proc := update s.proc p ((s.proc p).withArgs ns argv) })
      Never := by
  unfold sysExecArgs
  rw [spec_get_bind, spec_bind, h.pagetable, spec_deref_some, spec_bind, spec_vm]
  refine (fetchstr_spec (h.ok.tree r h.pt.user.live) path MAXPATH).imp ?_
  rintro (_ | ⟨k, path⟩) _ rfl
  · rw [spec_pure]
    exact ⟨G, h.ok, .refl _ G, rfl⟩
  · dsimp only
    rw [spec_bind, spec_vm]
    refine (fetchArgs_spec x h.ok h.pt.user.live).imp ?_
    rintro ⟨ps, args⟩ ph ⟨ns, G1, rfl, h1, ht, hargs⟩
    cases args with
    | none =>
      dsimp only
      have hheld : ∀ n ∈ ns, G1.own n = .held x := fun n hn => by rw [ht.own, if_pos hn]
      rw [spec_bind, spec_vm]
      refine (freeArgs_spec h1 ht.nodup hheld).imp ?_
      rintro _ ph' ⟨G', h', hf⟩
      rw [spec_pure]
      exact ⟨G', h', ht.freed (.refl ph G1) hf, rfl⟩
    | some argv =>
      dsimp only
      rw [spec_bind, spec_setProc, spec_pure]
      obtain ⟨hcount, hshort⟩ := hargs argv rfl
      refine ⟨G1, h1, ns, argv, ⟨hcount, hshort⟩, ht, ?_⟩
      rw [Proc.withArgs, h.pagetable]

variable {argv : List (List UInt8)}

theorem ProcMem.taken {s1 : State} {G1 : Ghost H} {ns : List ℕ}
    (h : ProcMem cfg owns p t r s G) (h1 : MemOk cfg owns s1.phys G1)
    (ht : Taken x ns s.phys s1.phys G G1)
    (hs : s1.proc = update s.proc p ((s.proc p).withArgs ns argv)) :
    ProcMem cfg owns p t r s1 G1 := by
  have hproc : s1.proc p = (s.proc p).withArgs ns argv := by rw [hs, update_self]
  constructor
  · exact h1
  · intro n hn
    rw [ht.own] at hn
    split at hn
    · cases hn
    · exact h.tables n hn
  · exact h.owns
  · rw [hproc]
    exact h.pagetable
  · rw [hproc]
    exact h.trapframe
  · obtain ⟨y, hy⟩ := h.held
    have hnot : t ∉ ns := by
      intro hmem
      rw [ht.free t hmem] at hy
      cases hy
    exact ⟨y, by rw [ht.own, if_neg hnot, hy]⟩
  · rw [hproc]
    exact h.pt.congr (by rw [ht.live]; exact h.pt.user.live) (by rw [ht.leaf])

/-- The second part. The pages of the arguments are given back in any case. -/
theorem sysExecFile_spec [Inhabited H] {path : List UInt8} {ns : List ℕ}
    (h : ProcMem cfg owns p t r s G) (ha : Args argv)
    (hargs : (s.proc p).args = some (ns.map (4096 * ·), argv)) (hnd : ns.Nodup)
    (hheld : ∀ n ∈ ns, G.own n = .held x) (file : Option Image) :
    Spec (sysExecFile cfg p path file) s (fun res s' =>
      ∃ s1 : State, ∃ G1 G' : Ghost H, MemOk cfg owns s'.phys G' ∧
        Given .free ns s1.phys s'.phys G1 G' ∧ s' = { s1 with
          phys := s'.phys, proc := update s1.proc p { s1.proc p with args := none } } ∧
        match res with
        | none => Same s.phys s1.phys G G1 ∧ ∃ calls, ExecCalls path calls ∧
            s1 = { s with phys := s1.phys, fs := s.fs ++ calls }
        | some argc => argc = argv.length ∧ ∃ f r' N B,
            Executed cfg owns p f path argv t r' N B s s1 G1 ∧
            Swapped r r' t s.phys s1.phys G G1 ∧ s1 = { s with
              phys := s1.phys, proc := s1.proc
              fs := s.fs ++ [.beginOp, .namei path, .ilock, .iunlockput, .endOp] }) Never := by
  unfold sysExecFile
  rw [spec_get_bind, hargs]
  dsimp only
  rw [spec_bind]
  refine (exec_spec h ha file).imp ?_
  rintro res s1 ⟨-, hres⟩
  rw [spec_bind, spec_vm]
  cases res with
  | none =>
    obtain ⟨⟨calls, hcalls, hs1⟩, G1, h1, hsame⟩ := hres
    have hheld1 : ∀ n ∈ ns, G1.own n = .held x := fun n hn => by rw [hsame.own, hheld n hn]
    refine (freeArgs_spec h1 hnd hheld1).imp ?_
    rintro _ ph' ⟨G', h', hf⟩
    rw [spec_get_bind, spec_bind, spec_setProc, spec_pure]
    exact ⟨s1, G1, G', h', hf, rfl, hsame, calls, hcalls, hs1⟩
  | some argc =>
    obtain ⟨hargc, f, y, r', N, B, s0, G0, G1, -, -, -, he, hswap, hs1⟩ := hres
    have hheld1 : ∀ n ∈ ns, G1.own n = .held x := fun n hn =>
      (hswap.own n (.held x) trivial trivial).mpr (hheld n hn)
    refine (freeArgs_spec he.space.ok hnd hheld1).imp ?_
    rintro _ ph' ⟨G', h', hf⟩
    rw [spec_get_bind, spec_bind, spec_setProc, spec_pure]
    exact ⟨s1, G1, G', h', hf, rfl, hargc, f, r', N, B, he, hswap, hs1⟩

/-! ## Failure -/

/-- The same pages are free, and the memory of all processes is as it was. -/
structure MemKept (cfg : Config) (owns : ℕ → ℕ → Prop) (G : Ghost H) (s s' : Phys) : Prop where
  ghost : ∃ G', MemOk cfg owns s' G' ∧ Same s s' G G'
  free : ∀ P, FreeList s.mem s.freelist P → FreeList s'.mem s'.freelist P
  pte : ∀ r, G.live r → ∀ va < MAXVA, pte cfg s' (4096 * r) va = pte cfg s (4096 * r) va
  bytes : ∀ r, G.live r → ∀ va < MAXVA, owns r (va / 4096) → Mem.pte cfg s (4096 * r) va ≠ 0 →
    byteAt cfg s' (4096 * r) va = byteAt cfg s (4096 * r) va

theorem Same.memKept {s s' : Phys} (hs : Same s s' G G') (h : MemOk cfg owns s G)
    (h' : MemOk cfg owns s' G') : MemKept cfg owns G s s' := by
  constructor
  · exact ⟨G', h', hs⟩
  · intro P hP
    refine h'.free.congr (fun _ _ => rfl) fun a => ?_
    rw [hP.unique h.free a, hs.own]
  · intro r hr va hva
    rw [h'.pte_eq ((hs.live r).mpr hr) hva, h.pte_eq hr hva, hs.leaf r hr]
  · intro r hr va hva ho h0
    rw [h.pte_eq hr hva] at h0
    rw [h'.byteAt_eq ((hs.live r).mpr hr) hva, h.byteAt_eq hr hva, hs.leaf r hr]
    have hown : G.own (G.leaf r (va / 4096) / 1024) = .leaf r (va / 4096) :=
      (h.leaf ..).mpr ⟨hr, ho, h0, rfl⟩
    exact hs.bytes _ (by rw [hown]; exact nofun) _ (by omega)

/-- What `sys_exec` has done with the file if it failed: nothing, or what `exec` does. -/
def SysExecCalls (calls : List FsCall) : Prop := calls = [] ∨ ∃ path, ExecCalls path calls

theorem sysExec_spec [Inhabited H] (h : ProcMem cfg owns p t r s G) (path uargv : ℕ)
    (file : Option Image) :
    Spec (sysExec cfg p path uargv file) s (fun res s' => res = none →
      (∃ G', MemOk cfg owns s'.phys G' ∧ Same s.phys s'.phys G G') ∧ ∃ calls, SysExecCalls calls ∧
        s' = { s with
          phys := s'.phys, fs := s.fs ++ calls
          proc := update s.proc p { s.proc p with args := (s'.proc p).args } }) Never := by
  unfold sysExec
  rw [spec_bind]
  refine (sysExecArgs_spec default h).imp ?_
  rintro (_ | path') s1 ⟨G1, h1, hres⟩
  · rw [spec_pure]
    obtain ⟨hsame, hs1⟩ := hres
    refine fun _ => ⟨⟨G1, h1, hsame⟩, [], .inl rfl, ?_⟩
    rw [hs1]
    simp
  · obtain ⟨ns, argv, ha, ht, hs1⟩ := hres
    have hproc : s1.proc = update s.proc p ((s.proc p).withArgs ns argv) := by rw [hs1]
    have hargs : (s1.proc p).args = some (ns.map (4096 * ·), argv) := by
      rw [hproc, update_self]
      rfl
    have hheld : ∀ n ∈ ns, G1.own n = .held default := fun n hn => by rw [ht.own, if_pos hn]
    refine (sysExecFile_spec (h.taken h1 ht hproc) ha hargs ht.nodup hheld file).imp ?_
    rintro _ s' ⟨s2, G2, G', h', hf, hs', hres⟩ rfl
    obtain ⟨hsame, calls, hcalls, hs2⟩ := hres
    refine ⟨⟨G', h', ht.freed hsame hf⟩, calls, .inr ⟨_, hcalls⟩, ?_⟩
    rw [hs', hs2, hs1]
    simp [Proc.withArgs]

/-- `exec` and `sys_exec` never panic, and if they fail, nothing but the calls into the file system
remains of them. -/
theorem exec_fails_clean [Inhabited H] (h : ProcMem cfg owns p t r s G) (file : Option Image) :
    (∀ path argv, Args argv → ∃ res s', exec cfg p path file argv s = .ok (res, s') ∧
      (res = none → MemKept cfg owns G s.phys s'.phys ∧ ∃ calls, ExecCalls path calls ∧
        s' = { s with phys := s'.phys, fs := s.fs ++ calls })) ∧
    ∀ path uargv, ∃ res s', sysExec cfg p path uargv file s = .ok (res, s') ∧
      (res = none → MemKept cfg owns G s.phys s'.phys ∧ ∃ calls, SysExecCalls calls ∧ s' = { s with
          phys := s'.phys, fs := s.fs ++ calls
          proc := update s.proc p { s.proc p with args := (s'.proc p).args } }) := by
  constructor
  · intro path argv ha
    have hspec : Spec (exec cfg p path file argv) s (fun res s' => res = none →
        Restored cfg owns path s G s') Never := by
      refine (exec_spec h ha file).imp fun res s' hres => ?_
      rintro rfl
      exact hres.2
    obtain ⟨res, s', hrun, hres⟩ := hspec.exists_ok
    refine ⟨res, s', hrun, fun hnone => ?_⟩
    obtain ⟨hstate, G', h', hsame⟩ := hres hnone
    exact ⟨hsame.memKept h.ok h', hstate⟩
  · intro path uargv
    obtain ⟨res, s', hrun, hres⟩ := (sysExec_spec h path uargv file).exists_ok
    refine ⟨res, s', hrun, fun hnone => ?_⟩
    obtain ⟨⟨G', h', hsame⟩, hstate⟩ := hres hnone
    exact ⟨hsame.memKept h.ok h', hstate⟩

end Call

/-- The program is loaded, and then its argument does not fit into the stack. -/
theorem exec_fails_clean_longArg : ∃ (G : Ghost Unit) (x : Start) (s1 s' : State),
    execImage smallConfig initproc [] (some emptyProgram) freshState = .ok (some x, s1) ∧
    exec smallConfig initproc [] (some emptyProgram) [List.replicate 4080 97] freshState =
      .ok (none, s') ∧
    MemKept smallConfig (fun _ v => v < top) G freshState.phys s'.phys ∧
    ∃ calls, ExecCalls [] calls ∧
      s' = { freshState with phys := s'.phys, fs := freshState.fs ++ calls } := by
  obtain ⟨r, G, h⟩ := fresh_procMem
  obtain ⟨x, s1, himage⟩ := exists_of_yields emptyProgram_loaded
  have ha : Args [List.replicate 4080 97] := ⟨by decide, by decide +kernel⟩
  obtain ⟨res, s', hrun, hnone, -⟩ := (exec_spec h ha (some emptyProgram)).exists_ok
  obtain rfl : res = none := hnone.mpr (.inr (by decide +kernel))
  obtain ⟨res, s'', hrun', hres⟩ := (exec_fails_clean h (some emptyProgram)).1 [] _ ha
  rw [hrun] at hrun'
  obtain ⟨rfl, rfl⟩ := Prod.mk.inj (Except.ok.inj hrun')
  exact ⟨G, x, s1, s', himage, hrun, hres rfl⟩

end TatakOS.Mem
