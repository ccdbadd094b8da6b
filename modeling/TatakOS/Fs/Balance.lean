import Mathlib.Algebra.BigOperators.Fin
import TatakOS.Fs.Counts

/-!
# Every call balances its references

Each system call, on each of its paths, leaves no reference in a local variable behind. By induction
over the calls the counts are exact whenever no call is in progress.
-/

namespace TatakOS.Fs

open Function
open ProcTable (Slot)

variable {s s' : State} {F F' : FileId → ℤ} {I I' : Ip → ℤ} {f : FileId} {ip : Ip} {p : Slot}

/-- No reference is in a local variable. -/
abbrev Settled (s : State) : Prop := Acc s (fun _ => 0) fun _ => 0

/-- The call ends in a state where no reference is in a local variable. -/
def Settles {α : Type} (m : Kern α) : Prop :=
  ∀ s, Settled s → Spec m s (fun _ s' => Settled s') PipesLive

theorem settles_of_quiet {α : Type} {m : Kern α} (h : Quiet m) : Settles m := fun _ hs =>
  (hs.run h.adds).imp fun _ _ h' => h'.1

/-! ## Descriptors -/

theorem settles_sysClose (fd : ℤ) : Settles (sysClose p fd) := by
  intro s h
  unfold sysClose
  rw [spec_bind]
  refine spec_argfd (spec_pure.mpr h) fun x fd f hx hf => ?_
  dsimp only
  rw [spec_bind]
  refine spec_setOfile fun y hy => ?_
  obtain rfl : y = x := Option.some.inj (hy.symm.trans hx)
  refine (fileclose_spec (h.clearFd hy hf)).bind ?_
  rintro - s1 ⟨h1, -⟩
  refine spec_pure.mpr (h1.congr (fun g => ?_) fun _ => rfl)
  ring

theorem settles_sysDup (fd : ℤ) : Settles (sysDup p fd) := by
  intro s h
  unfold sysDup
  rw [spec_bind]
  refine spec_argfd (spec_pure.mpr h) fun x fd f hx hf => ?_
  dsimp only
  rw [spec_bind]
  refine spec_fdalloc (spec_pure.mpr h) fun y fd' hy hfd' => ?_
  refine (filedup_spec (h.fdalloc hy hfd')).bind ?_
  rintro - s1 ⟨h1, -⟩
  refine spec_pure.mpr (h1.congr (fun g => ?_) fun _ => rfl)
  ring

/-! ## Pipes -/

/-- The references that come with two files. -/
def heldFiles : Option (FileId × FileId) → FileId → ℤ
  | none, _ => 0
  | some (rf, wf), g => one rf g + one wf g

theorem pipealloc_spec (h : Settled s) (page : Option ℕ) :
    Spec (pipealloc page) s (fun r s' => Acc s' (heldFiles r) (fun _ => 0)) PipesLive := by
  unfold pipealloc
  rw [spec_bind]
  refine spec_filealloc (spec_pure.mpr h) fun f0 h0 => ?_
  have hA := h.filealloc h0
  have ht0 := h.counts.unused f0 h0
  set s1 : State := { s with ftable := update s.ftable f0 { s.ftable f0 with ref := 1 } }
  dsimp only
  rw [spec_bind]
  refine spec_filealloc ?_ fun f1 h1 => ?_
  · refine (closeAll_spec hA).bind ?_
    rintro - s2 ⟨h2, -⟩
    refine spec_pure.mpr (h2.congr (fun g => ?_) fun _ => rfl)
    simp [heldFiles]
  have hne : f0 ≠ f1 := by
    rintro rfl
    have : (update s.ftable f0 { s.ftable f0 with ref := 1 } f0).ref = 0 := h1
    rw [update_self] at this
    cases this
  have hB := hA.filealloc h1
  have ht1 := hA.counts.unused f1 h1
  set s2 : State := { s1 with ftable := update s1.ftable f1 { s1.ftable f1 with ref := 1 } }
    with hs2
  have hf0 : s2.ftable f0 = { s.ftable f0 with ref := 1 } := by
    show update (update s.ftable f0 _) f1 _ f0 = _
    rw [update_of_ne hne, update_self]
  have hf1 : s2.ftable f1 = { s1.ftable f1 with ref := 1 } := by
    show update s1.ftable f1 _ f1 = _
    rw [update_self]
  have hr0 : (s2.ftable f0).ref = 1 := by rw [hf0]
  have hr1 : (s2.ftable f1).ref = 1 := by rw [hf1]
  have ht0' : (s2.ftable f0).type = .FD_NONE := by rw [hf0]; exact ht0
  have ht1' : (s2.ftable f1).type = .FD_NONE := by rw [hf1]; exact ht1
  clear_value s2
  dsimp only
  rw [spec_bind]
  unfold kalloc
  cases page with
  | none =>
    refine spec_pure.mpr ?_
    refine (closeAll_spec hB).bind ?_
    rintro - s3 ⟨h3, -⟩
    refine spec_pure.mpr (h3.congr (fun g => ?_) fun _ => rfl)
    simp [heldFiles]
  | some pi =>
    dsimp only
    rw [spec_get_bind]
    split_ifs with hpi
    · exact spec_panic.mpr (by rintro ⟨⟩)
    rw [spec_pure]
    simp only [setPipe, setFile, spec_bind, spec_modify, spec_get, spec_pure]
    have hnone : s2.pipes pi = none := by simpa using hpi
    rw [update_of_ne hne.symm]
    refine ⟨?_, hB.pipes.create hnone hne (by rw [ht0']; decide) (by rw [ht1']; decide)
      ⟨hr0.symm ▸ one_pos, rfl, rfl, rfl⟩ ⟨hr1.symm ▸ one_pos, rfl, rfl, rfl⟩⟩
    -- the counts do not see that the files are now pipes
    have hc := hB.counts.setFile (f := f0)
      { s2.ftable f0 with type := .FD_PIPE, readable := true, writable := false, pipe := pi }
      fun e => absurd (hr0.symm.trans e) one_ne_zero
    have hc' := hc.setFile (f := f1)
      { s2.ftable f1 with type := .FD_PIPE, readable := false, writable := true, pipe := pi }
      fun e => absurd (hr1.symm.trans e) one_ne_zero
    refine ⟨fun g => (hc'.file g).trans ?_, hc'.unused, fun k => (hc'.inode k).trans ?_⟩
    · congr 1
      dsimp only
      rw [update_of_ne hne.symm, sub_self, sub_self]
      simp [heldFiles]
    · congr 1
      dsimp only
      rw [update_of_ne hne.symm, fileRef_of_type (.inl ht0'), fileRef_of_type (.inl ht1')]
      simp [fileRef]

theorem settles_closeAll {rf wf : FileId} (h : Acc s (heldFiles (some (rf, wf))) fun _ => 0) :
    Spec (do closeAll [rf, wf]; return false) s (fun _ s' => Settled s') PipesLive := by
  refine (closeAll_spec h).bind ?_
  rintro - s1 ⟨h1, -⟩
  refine spec_pure.mpr (h1.congr (fun g => ?_) fun _ => rfl)
  simp [heldFiles]

theorem settles_sysPipe (um : UserMem) (fdarray : ℕ) (page : Option ℕ) :
    Settles (sysPipe p um fdarray page) := by
  intro s h
  -- the process after a descriptor is set
  have hproc : ∀ {procs : Slot → Option Proc} {x y : Proc},
      update procs p (some x) p = some y → y = x := by
    intro procs x y hy
    rw [update_self] at hy
    exact (Option.some.inj hy).symm
  unfold sysPipe
  refine (pipealloc_spec h page).bind fun r s1 h1 => ?_
  cases r with
  | none => exact spec_pure.mpr h1
  | some r =>
    obtain ⟨rf, wf⟩ := r
    dsimp only
    rw [spec_bind]
    refine spec_fdalloc (settles_closeAll h1) fun x fd0 hx hfd0 => ?_
    have h2 := h1.fdalloc (f := rf) hx hfd0
    set x2 : Proc := { x with ofile := update x.ofile fd0 (some rf) }
    have hx2 : x2.ofile fd0 = some rf := update_self _ _ _
    dsimp only
    rw [spec_bind]
    refine spec_fdalloc ?_ fun y fd1 hy hfd1 => ?_
    · unfold undoPipe
      rw [spec_bind]
      refine spec_setOfile fun y hy => ?_
      obtain rfl : y = x2 := hproc hy
      refine settles_closeAll ((h2.clearFd hy hx2).congr (fun g => ?_) fun _ => rfl)
      ring
    · obtain rfl : y = x2 := hproc hy
      have hne : fd0 ≠ fd1 := by
        rintro rfl
        rw [hx2] at hfd1
        cases hfd1
      have h3 := h2.fdalloc (f := wf) hy hfd1
      set x3 : Proc := { x2 with ofile := update x2.ofile fd1 (some wf) }
      have hx3 : x3.ofile fd0 = some rf := (update_of_ne hne _ _).trans hx2
      dsimp only
      split_ifs
      · refine spec_pure.mpr (h3.congr (fun g => ?_) fun _ => rfl)
        simp [heldFiles]
      · unfold undoPipe
        rw [spec_bind]
        refine spec_setOfile fun z hz => ?_
        obtain rfl : z = x3 := hproc hz
        have h4 := h3.clearFd hz hx3
        set x4 : Proc := { x3 with ofile := update x3.ofile fd0 none }
        have hx4 : x4.ofile fd1 = some wf := by
          show update (update x2.ofile fd1 (some wf)) fd0 none fd1 = some wf
          rw [update_of_ne hne.symm, update_self]
        rw [spec_bind]
        refine spec_setOfile fun z' hz' => ?_
        obtain rfl : z' = x4 := hproc hz'
        refine settles_closeAll ((h4.clearFd hz' hx4).congr (fun g => ?_) fun _ => rfl)
        ring

/-! ## Opening -/

theorem openFile_spec (h : Acc s F I) :
    Spec (openFile p) s (fun r s' => Acc s' F I ∧ ∀ f fd, r = some (f, fd) →
      (s'.ftable f).ref = 1 ∧ (s'.ftable f).type = .FD_NONE) PipesLive := by
  unfold openFile
  rw [spec_bind]
  refine spec_filealloc (spec_pure.mpr ⟨h, by simp⟩) fun f h0 => ?_
  have h1 := h.filealloc h0
  dsimp only
  rw [spec_bind]
  refine spec_fdalloc ?_ fun x fd hx hfd => ?_
  · refine (fileclose_spec h1).bind ?_
    rintro - s2 ⟨h2, -⟩
    refine spec_pure.mpr ⟨h2.congr (fun g => ?_) fun _ => rfl, by simp⟩
    ring
  · refine spec_pure.mpr ⟨(h1.fdalloc hx hfd).congr (fun g => ?_) fun _ => rfl, fun f' fd' e => ?_⟩
    · ring
    · cases e
      show (update s.ftable f _ f).ref = 1 ∧ (update s.ftable f _ f).type = _
      rw [update_self]
      exact ⟨rfl, h.counts.unused f h0⟩

theorem Acc.opened (h : Acc s F I) (h1 : (s.ftable f).ref = 1) (ht : (s.ftable f).type = .FD_NONE)
    (ip : Ip) (d : Dinode) (omode : ℕ) :
    Acc { s with ftable := update s.ftable f (openedFile (s.ftable f) ip d omode) } F
      (fun k => I k - one ip k) := by
  have href : (openedFile (s.ftable f) ip d omode).ref = 1 := by
    unfold openedFile
    dsimp only
    split_ifs <;> exact h1
  have htype : (openedFile (s.ftable f) ip d omode).type = .FD_INODE ∨
      (openedFile (s.ftable f) ip d omode).type = .FD_DEVICE := by
    unfold openedFile
    dsimp only
    split_ifs
    · exact .inr rfl
    · exact .inl rfl
  refine ⟨(h.counts.setFile _ fun e => ?_).congr (fun g => ?_) fun k => ?_,
    h.pipes.setFile fun pi w => ?_⟩
  · rw [href] at e
    cases e
  · rw [href, h1, sub_self, zero_mul, add_zero]
  · have hnew : fileRef k (openedFile (s.ftable f) ip d omode) = one ip k := by
      unfold fileRef one
      simp only [href, htype]
      simp [openedFile, eq_comm]
    rw [hnew, fileRef_of_type (.inl ht), sub_zero]
  · rcases htype with e | e <;> simp [IsEnd, ht, e]

theorem putEnd_spec {α : Type} (a : α) (h : Acc s (fun _ => 0) (one ip)) :
    Spec (do iunlockput ip; endOp; return a) s (fun _ s' => Settled s') PipesLive := by
  refine h.bind adds_iunlockput fun _ s1 h1 _ => ?_
  refine h1.then fun _ s2 h2 _ => ?_
  refine spec_pure.mpr (h2.congr (fun _ => rfl) fun k => ?_)
  ring

/-- `open` leaves one reference, in the file that it opened. -/
theorem settles_sysOpen (um : UserMem) (path omode : ℕ) : Settles (sysOpen p um path omode) := by
  intro s h
  unfold sysOpen
  split
  · exact spec_pure.mpr h
  rename_i path _
  refine h.then fun _ s1 h1 _ => ?_
  refine h1.bind adds_openInode fun r s2 h2 _ => ?_
  cases r with
  | none =>
    refine h2.then fun _ s3 h3 _ => ?_
    exact spec_pure.mpr (h3.congr (fun _ => rfl) fun k => rfl)
  | some ip =>
    have h2' : Acc s2 (fun _ => 0) (one ip) := h2.congr (fun _ => rfl) fun k => (zero_add _).symm
    dsimp only
    rw [spec_get_bind]
    split_ifs
    · exact putEnd_spec none h2'
    refine (openFile_spec h2').bind ?_
    rintro r s3 ⟨h3, hf⟩
    cases r with
    | none => exact putEnd_spec none h3
    | some r =>
      obtain ⟨f, fd⟩ := r
      obtain ⟨href, htype⟩ := hf f fd rfl
      dsimp only
      rw [spec_get_bind, spec_bind, setFile, spec_modify]
      have h4 := h3.opened href htype ip (s3.itable ip).din omode
      have : Quiet (truncOpened ip omode) := by
        unfold truncOpened
        infer_instance
      refine h4.then fun _ s5 h5 _ => ?_
      refine h5.then fun _ s6 h6 _ => ?_
      refine h6.then fun _ s7 h7 _ => ?_
      exact spec_pure.mpr (h7.congr (fun _ => rfl) fun k => (sub_self _).symm)

/-! ## Directories -/

theorem cwdRef_some (x : Proc) (k : Ip) : cwdRef k (some x) = one x.cwd k := by
  unfold cwdRef one
  simp [eq_comm]

theorem settles_sysChdir (um : UserMem) (path : ℕ) : Settles (sysChdir p um path) := by
  intro s h
  unfold sysChdir
  refine h.then fun _ s1 h1 _ => ?_
  split
  · refine h1.then fun _ s2 h2 _ => ?_
    exact spec_pure.mpr h2
  rename_i path _
  refine h1.bind adds_namei fun r s2 h2 _ => ?_
  cases r with
  | none =>
    refine h2.then fun _ s3 h3 _ => ?_
    exact spec_pure.mpr (h3.congr (fun _ => rfl) fun k => rfl)
  | some ip =>
    have h2' : Acc s2 (fun _ => 0) (one ip) := h2.congr (fun _ => rfl) fun k => (zero_add _).symm
    refine h2'.then fun _ s3 h3 _ => ?_
    rw [spec_get_bind]
    split_ifs
    · exact putEnd_spec false h3
    · refine h3.then fun _ s4 h4 _ => ?_
      rw [spec_bind]
      refine spec_getProc fun x hx => ?_
      refine h4.bind adds_iput fun _ s5 h5 hs5 => ?_
      refine h5.then fun _ s6 h6 hs6 => ?_
      have hx6 : s6.procs p = some x := by rw [hs6.procs, hs5.procs, hx]
      rw [spec_bind]
      refine spec_getProc fun y hy => ?_
      obtain rfl : y = x := Option.some.inj (hy.symm.trans hx6)
      rw [spec_bind, setProc, spec_modify, spec_pure]
      refine (h6.setProc (some { y with cwd := ip })).congr (fun g => ?_) fun k => ?_
      · rw [hy]
        simp [procFiles]
      · rw [hy, cwdRef_some, cwdRef_some]
        ring

/-! ## Reading and writing -/

theorem settles_sysRead (um : UserMem) (fd : ℤ) (addr : ℕ) (n : ℤ) (other : Option ℕ) :
    Settles (sysRead p um fd addr n other) := by
  intro s h
  unfold sysRead
  rw [spec_bind]
  refine spec_argfd (spec_pure.mpr h) fun x fd f hx hf => ?_
  dsimp only
  rw [spec_get_bind]
  split_ifs
  · exact spec_pure.mpr h
  split
  · exact spec_panic.mpr nofun
  · exact spec_pure.mpr h
  · exact spec_pure.mpr h
  · refine h.then fun _ s1 h1 hs1 => ?_
    refine h1.then fun r s2 h2 hs2 => ?_
    have hft : s2.ftable = s.ftable := hs2.ftable.trans hs1.ftable
    rw [spec_bind, setFile, spec_modify, ← hft]
    refine (h2.setOff f _).then fun _ s3 h3 _ => ?_
    exact spec_pure.mpr h3

theorem settles_filewriteLoop (um : UserMem) (addr n k i : ℕ) :
    Settles (filewriteLoop f um addr n k i) := by
  induction k generalizing i with
  | zero => exact fun s h => spec_pure.mpr h
  | succ k ih =>
    intro s h
    unfold filewriteLoop
    split_ifs
    · refine h.then fun _ s1 h1 _ => ?_
      rw [spec_get_bind]
      refine h1.then fun _ s2 h2 hs2 => ?_
      refine h2.then fun r s3 h3 hs3 => ?_
      have hft : s3.ftable = s1.ftable := hs3.ftable.trans hs2.ftable
      rw [spec_bind, setFile, spec_modify, ← hft]
      refine (h3.setOff f _).then fun _ s4 h4 _ => ?_
      refine h4.then fun _ s5 h5 _ => ?_
      split_ifs
      · exact ih _ s5 h5
      · exact spec_pure.mpr h5
    · exact spec_pure.mpr h

theorem settles_sysWrite (um : UserMem) (fd : ℤ) (addr : ℕ) (n : ℤ) (other : Option ℕ) :
    Settles (sysWrite p um fd addr n other) := by
  intro s h
  unfold sysWrite
  rw [spec_bind]
  refine spec_argfd (spec_pure.mpr h) fun x fd f hx hf => ?_
  dsimp only
  rw [spec_get_bind]
  split
  · exact spec_pure.mpr h
  split
  · exact spec_panic.mpr nofun
  · exact spec_pure.mpr h
  · exact spec_pure.mpr h
  split
  · exact spec_pure.mpr h
  refine (settles_filewriteLoop _ _ _ _ _ s h).bind fun r s1 h1 => ?_
  split
  · exact spec_pure.mpr h1
  · exact spec_pure.mpr h1

/-! ## Processes -/

theorem dupFiles_spec (x : Proc) {fds : List Fd} (h : Acc s F I) : Spec (dupFiles x fds) s
      (fun _ s' => Acc s' (fun g => F g +
        (fds.map fun fd => if x.ofile fd = some g then (1 : ℤ) else 0).sum) I ∧
          s'.procs = s.procs) PipesLive := by
  induction fds generalizing s F with
  | nil =>
    refine spec_pure.mpr ⟨h.congr (fun g => ?_) fun _ => rfl, rfl⟩
    simp
  | cons fd fds ih =>
    unfold dupFiles
    cases hf : x.ofile fd with
    | none =>
      refine (ih h).imp ?_
      rintro - s1 ⟨h1, hp1⟩
      refine ⟨h1.congr (fun g => ?_) fun _ => rfl, hp1⟩
      simp [hf]
    | some f =>
      refine (filedup_spec h).bind ?_
      rintro - s1 ⟨h1, hp1⟩
      refine (ih h1).imp ?_
      rintro - s2 ⟨h2, hp2⟩
      refine ⟨h2.congr (fun g => ?_) fun _ => rfl, hp2.trans hp1⟩
      rw [List.map_cons, List.sum_cons, hf, ite_some_eq]
      ring

theorem settles_sysFork (np : Option Slot) : Settles (sysFork p np) := by
  intro s h
  unfold sysFork
  cases np with
  | none => exact spec_pure.mpr h
  | some np =>
    dsimp only
    rw [spec_get_bind]
    split_ifs with hnp
    · exact spec_panic.mpr nofun
    rw [spec_bind]
    refine spec_getProc fun x hx => ?_
    refine (dupFiles_spec x h).bind ?_
    rintro - s1 ⟨h1, hp1⟩
    refine h1.bind adds_idup fun cwd s2 h2 hs2 => ?_
    rw [spec_bind, setProc, spec_modify, spec_pure]
    have hnone : s2.procs np = none := by
      rw [hs2.procs, hp1]
      simpa using hnp
    refine (h2.setProc (some { ofile := x.ofile, cwd := cwd })).congr (fun g => ?_) fun k => ?_
    · rw [hnone]
      show 0 = 0 + _ - ((∑ fd, if x.ofile fd = some g then (1 : ℤ) else 0) - 0)
      rw [Fin.sum_univ_def]
      ring
    · rw [hnone, cwdRef_some]
      simp [cwdRef]

/-- Afterwards the descriptors are empty, and those that were empty still are. -/
theorem closeFiles_spec {fds : List Fd} (h : Settled s) : Spec (closeFiles p fds) s
      (fun _ s' => Settled s' ∧ ∀ x', s'.procs p = some x' → (∀ fd ∈ fds, x'.ofile fd = none) ∧
        ∀ x, s.procs p = some x → ∀ fd, x.ofile fd = none → x'.ofile fd = none) PipesLive := by
  induction fds generalizing s with
  | nil =>
    refine spec_pure.mpr ⟨h, fun x' hx' => ⟨by simp, fun x hx fd hfd => ?_⟩⟩
    obtain rfl : x' = x := Option.some.inj (hx'.symm.trans hx)
    exact hfd
  | cons fd fds ih =>
    unfold closeFiles
    rw [spec_bind]
    refine spec_getProc fun y hy => ?_
    cases hf : y.ofile fd with
    | none =>
      refine (ih h).imp ?_
      rintro - s1 ⟨h1, hnone⟩
      refine ⟨h1, fun x' hx' => ⟨List.forall_mem_cons.mpr ⟨?_, (hnone x' hx').1⟩, (hnone x' hx').2⟩⟩
      exact (hnone x' hx').2 y hy fd hf
    | some f =>
      refine (fileclose_spec h).bind ?_
      rintro - s1 ⟨h1, hp1⟩
      rw [spec_bind]
      refine spec_setOfile fun z hz => ?_
      obtain rfl : z = y := Option.some.inj (hz.symm.trans (hp1 ▸ hy))
      have h2 : Settled { s1 with
          procs := update s1.procs p
            (some { z with ofile := update z.ofile fd none }) } := by
        refine (h1.clearFd hz hf).congr (fun g => ?_) fun _ => rfl
        ring
      refine (ih h2).imp ?_
      rintro - s3 ⟨h3, hnone⟩
      refine ⟨h3, fun x' hx' => ?_⟩
      obtain ⟨hempty, hmono⟩ := hnone x' hx'
      have hmono' := hmono _ (update_self _ _ _)
      refine ⟨List.forall_mem_cons.mpr ⟨hmono' fd (update_self _ _ _), hempty⟩,
        fun x hx fd' hfd' => hmono' fd' ?_⟩
      obtain rfl : x = z := Option.some.inj (hx.symm.trans hy)
      show update x.ofile fd none fd' = none
      by_cases e : fd' = fd
      · rw [e, update_self]
      · rw [update_of_ne e]
        exact hfd'

theorem settles_sysExit : Settles (sysExit p) := by
  intro s h
  unfold sysExit
  split_ifs
  · exact spec_panic.mpr nofun
  refine (closeFiles_spec h).bind ?_
  rintro - s1 ⟨h1, hnone⟩
  refine h1.then fun _ s2 h2 hs2 => ?_
  rw [spec_bind]
  refine spec_getProc fun y hy => ?_
  have hempty := (hnone y (hs2.procs ▸ hy)).1
  refine h2.bind adds_iput fun _ s3 h3 hs3 => ?_
  refine h3.then fun _ s4 h4 hs4 => ?_
  have hy4 : s4.procs p = some y := by rw [hs4.procs, hs3.procs, hy]
  rw [setProc, spec_modify]
  refine (h4.setProc none).congr (fun g => ?_) fun k => ?_
  · rw [hy4]
    simp [procFiles, hempty]
  · rw [hy4, cwdRef_some]
    simp [cwdRef]

/-! ## Runs -/

theorem Settles.ret {α β : Type} {m : Kern α} (h : Settles m) (g : α → β) :
    Settles (do return g (← m)) := fun s hs =>
  (h s hs).bind fun _ _ hs' => spec_pure.mpr hs'

/-- Every call settles. -/
theorem settles_call (c : Call) : Settles (call p c) := by
  cases c with
  | openFile um path omode => exact (settles_sysOpen um path omode).ret _
  | close fd => exact settles_sysClose fd
  | dup fd => exact (settles_sysDup fd).ret _
  | pipe um fdarray page => exact settles_sysPipe um fdarray page
  | link um old new => exact settles_of_quiet quiet_sysLink
  | unlink um path => exact settles_of_quiet quiet_sysUnlink
  | mkdir um path | mknod um path major minor => exact settles_of_quiet quiet_sysCreate
  | chdir um path => exact settles_sysChdir um path
  | read um fd addr n other => exact (settles_sysRead um fd addr n other).ret _
  | write um fd addr n other => exact (settles_sysWrite um fd addr n other).ret _
  | fork np => exact settles_sysFork np
  | exit => exact settles_sysExit.ret _
  | exec um path luck => exact settles_of_quiet quiet_sysExec

theorem settles_calls (cs : List (Slot × Call)) : Settles (calls cs) := by
  induction cs with
  | nil => exact fun s h => spec_pure.mpr h
  | cons c cs ih =>
    intro s h
    exact (settles_call c.2 s h).bind fun _ s1 h1 => ih s1 h1

theorem settles_fsinit : Settles fsinit := by
  have : Quiet initlog := by
    refine ⟨.then fun _ => .then fun _ => ?_⟩
    split
    · exact adds_panic nofun
    · exact Quiet.adds
  have : Quiet (panic .invalid : Kern Unit) := quiet_panic nofun
  have : Quiet (modify fun s => { s with sb := .get (s.blk 1) }) := quiet_modify fun _ => rfl
  unfold fsinit
  exact settles_of_quiet inferInstance

theorem settled_powerOn (disk : ℕ → Block) : Settled (powerOn disk) := by
  have hend : ∀ pi w f, ¬ IsEnd (powerOn disk) pi w f := fun pi w f h => by
    simp [IsEnd, powerOn] at h
  refine ⟨⟨fun f => ?_, fun f _ => rfl, fun ip => ?_⟩, fun pi => ?_, fun pi x hx => ?_,
    fun pi w f g hf => (hend pi w f hf).elim⟩
  · show (0 : ℤ) = ∑ p, procFiles f ((powerOn disk).procs p) + 0
    rw [add_zero]
    refine (Finset.sum_eq_zero fun p _ => ?_).symm
    show procFiles f (if p = initproc then some _ else none) = 0
    split_ifs
    · simp [procFiles]
    · rfl
  · have hfile : ∑ f, fileRef ip ((powerOn disk).ftable f) = 0 :=
      Finset.sum_eq_zero fun f _ => fileRef_of_type (.inl rfl) ip
    have hcwd : ∀ p, cwdRef ip ((powerOn disk).procs p) =
        if p = initproc then (if ip.val = 0 then 1 else 0) else 0 := by
      intro p
      show cwdRef ip (if p = initproc then some _ else none) = _
      split_ifs with hp hip
      · exact if_pos (Fin.ext hip.symm)
      · exact if_neg fun e => hip (congrArg Fin.val e).symm
      · rfl
    unfold inodeRefs
    rw [hfile, Finset.sum_congr rfl fun p _ => hcwd p, Finset.sum_ite_eq' Finset.univ,
      if_pos (Finset.mem_univ _)]
    show (if ip.val = 0 then ({ inum := ROOTINO, ref := 1 } : Inode) else {}).ref = _
    split_ifs <;> rfl
  · simp [hend]
    rfl
  · cases hx

theorem Settled.balanced (h : Settled s) : Balanced s where
  file f := by rw [h.counts.file f, add_zero]
  unused := h.counts.unused
  inode ip := by rw [h.counts.inode ip, add_zero]
  page := h.pipes.page
  ends := h.pipes.ends

/-- After any sequence of calls the reference counts are exact. -/
theorem references_balance (disk : ℕ → Block) (cs : List (Slot × Call)) :
    Spec (do fsinit; calls cs) (powerOn disk) (fun _ s => Balanced s) fun e => e.1 ≠ .freedPipe :=
  (settles_fsinit _ (settled_powerOn disk)).bind fun _ s1 h1 =>
    (settles_calls cs s1 h1).imp fun _ _ h => h.balanced

end TatakOS.Fs
