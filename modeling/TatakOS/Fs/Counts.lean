import TatakOS.Fs.Refs

/-!
# Reference counts balance

Between two system calls the reference count of an open file is the number of descriptors that hold
it, that of an inode is the number of open files and current directories on it, and a pipe is there
as long as one of its ends is open. Within a call, `Acc s F I` allows for `F f` more references to
file `f` and `I ip` more to inode `ip`.
-/

namespace TatakOS.Fs

open Function
open ProcTable (Slot)

/-! ## Counting -/

/-- The descriptors of a process that hold the file. -/
def procFiles (f : FileId) : Option Proc → ℤ
  | none => 0
  | some x => ∑ fd, if x.ofile fd = some f then 1 else 0

/-- The current directory of a process, if it is the inode. -/
def cwdRef (ip : Ip) : Option Proc → ℤ
  | none => 0
  | some x => if x.cwd = ip then 1 else 0

/-- An open file on the inode. -/
def fileRef (ip : Ip) (x : File) : ℤ :=
  if 0 < x.ref ∧ (x.type = .FD_INODE ∨ x.type = .FD_DEVICE) ∧ x.ip = ip then 1 else 0

def fileRefs (s : State) (f : FileId) : ℤ := ∑ p, procFiles f (s.procs p)

def inodeRefs (s : State) (ip : Ip) : ℤ :=
  ∑ f, fileRef ip (s.ftable f) + ∑ p, cwdRef ip (s.procs p)

/-- File `f` is open and is an end of the pipe in page `pi`. -/
def IsEnd (s : State) (pi : ℕ) (w : Bool) (f : FileId) : Prop :=
  0 < (s.ftable f).ref ∧ (s.ftable f).type = .FD_PIPE ∧ (s.ftable f).pipe = pi ∧
    (s.ftable f).writable = w

structure Balanced (s : State) : Prop where
  file : ∀ f, (s.ftable f).ref = fileRefs s f
  unused : ∀ f, (s.ftable f).ref = 0 → (s.ftable f).type = .FD_NONE
  inode : ∀ ip, (s.itable ip).ref = inodeRefs s ip
  page : ∀ pi, (s.pipes pi).isSome ↔ ∃ w f, IsEnd s pi w f
  ends : ∀ pi x, s.pipes pi = some x →
    (x.readopen = true ↔ ∃ f, IsEnd s pi false f) ∧ (x.writeopen = true ↔ ∃ f, IsEnd s pi true f)

/-! ## Within a call -/

variable {s s' : State} {F F' : FileId → ℤ} {I I' : Ip → ℤ} {f : FileId} {ip : Ip} {p : Slot}

structure Counts (s : State) (F : FileId → ℤ) (I : Ip → ℤ) : Prop where
  file : ∀ f, (s.ftable f).ref = fileRefs s f + F f
  unused : ∀ f, (s.ftable f).ref = 0 → (s.ftable f).type = .FD_NONE
  inode : ∀ ip, (s.itable ip).ref = inodeRefs s ip + I ip

structure PipesOk (s : State) : Prop where
  page : ∀ pi, (s.pipes pi).isSome ↔ ∃ w f, IsEnd s pi w f
  ends : ∀ pi x, s.pipes pi = some x →
    (x.readopen = true ↔ ∃ f, IsEnd s pi false f) ∧ (x.writeopen = true ↔ ∃ f, IsEnd s pi true f)
  unique : ∀ pi w f g, IsEnd s pi w f → IsEnd s pi w g → f = g

structure Acc (s : State) (F : FileId → ℤ) (I : Ip → ℤ) : Prop where
  counts : Counts s F I
  pipes : PipesOk s

theorem Counts.congr (h : Counts s F I) (hF : ∀ f, F' f = F f) (hI : ∀ k, I' k = I k) :
    Counts s F' I' := by
  obtain rfl : F' = F := funext hF
  obtain rfl : I' = I := funext hI
  exact h

theorem Acc.congr (h : Acc s F I) (hF : ∀ f, F' f = F f) (hI : ∀ k, I' k = I k) : Acc s F' I' :=
  ⟨h.counts.congr hF hI, h.pipes⟩

theorem PipesOk.congr (h : PipesOk s) (he : ∀ pi w f, IsEnd s' pi w f ↔ IsEnd s pi w f)
    (hp : s'.pipes = s.pipes) : PipesOk s' := by
  refine ⟨fun pi => ?_, fun pi x hx => ?_, fun pi w f g hf hg => ?_⟩
  · simp only [hp, he]
    exact h.page pi
  · rw [hp] at hx
    simp only [he]
    exact h.ends pi x hx
  · exact h.unique pi w f g ((he _ _ _).mp hf) ((he _ _ _).mp hg)

theorem PipesOk.setPage (h : PipesOk s) {pi : ℕ} {v : Option PipeEnds}
    (hp : s'.pipes = update s.pipes pi v)
    (hold : ∀ pi' ≠ pi, ∀ w f, IsEnd s' pi' w f ↔ IsEnd s pi' w f)
    (hpage : v.isSome ↔ ∃ w f, IsEnd s' pi w f)
    (hends : ∀ x, v = some x → (x.readopen = true ↔ ∃ f, IsEnd s' pi false f) ∧
      (x.writeopen = true ↔ ∃ f, IsEnd s' pi true f))
    (hunique : ∀ w f g, IsEnd s' pi w f → IsEnd s' pi w g → f = g) : PipesOk s' := by
  refine ⟨fun pi' => ?_, fun pi' x => ?_, fun pi' => ?_⟩
  all_goals by_cases e : pi' = pi
  · rw [hp, e, update_self]
    exact hpage
  · rw [hp, update_of_ne e]
    simp only [hold pi' e]
    exact h.page pi'
  · rw [hp, e, update_self]
    exact hends x
  · rw [hp, update_of_ne e]
    simp only [hold pi' e]
    exact h.ends pi' x
  · rw [e]
    exact hunique
  · simp only [hold pi' e]
    exact h.unique pi'

theorem SameFiles.isEnd (h : SameFiles s s') (pi : ℕ) (w : Bool) (f : FileId) :
    IsEnd s' pi w f ↔ IsEnd s pi w f := by
  unfold IsEnd
  rw [h.ftable]

/-- Code that adds references keeps the books. -/
theorem Acc.run {α : Type} {m : Kern α} {d : α → Ip → ℤ} (h : Acc s F I) (hm : Adds m d) :
    Spec m s (fun a s' => Acc s' F (fun k => I k + d a k) ∧ SameFiles s s') PipesLive := by
  refine (hm s).imp fun a s' ⟨hs, hr⟩ => ⟨⟨⟨fun f => ?_, ?_, fun k => ?_⟩, ?_⟩, hs⟩
  · unfold fileRefs
    rw [hs.ftable, hs.procs]
    exact h.counts.file f
  · rw [hs.ftable]
    exact h.counts.unused
  · unfold inodeRefs
    rw [hs.ftable, hs.procs, hr k, h.counts.inode k, inodeRefs]
    ring
  · exact h.pipes.congr hs.isEnd hs.pipes

section Bind

variable {α β : Type} {m : Kern α} {g : α → Kern β} {Q : β → State → Prop} {d : α → Ip → ℤ}

theorem Acc.bind (h : Acc s F I) (hm : Adds m d)
    (hg : ∀ a s', Acc s' F (fun k => I k + d a k) → SameFiles s s' → Spec (g a) s' Q PipesLive) :
    Spec (m >>= g) s Q PipesLive :=
  (h.run hm).bind fun a s' h' => hg a s' h'.1 h'.2

theorem Acc.then (h : Acc s F I) [hm : Quiet m]
    (hg : ∀ a s', Acc s' F I → SameFiles s s' → Spec (g a) s' Q PipesLive) :
    Spec (m >>= g) s Q PipesLive :=
  h.bind hm.adds fun a s' h' => hg a s' (h'.congr (fun _ => rfl) fun _ => (add_zero _).symm)

end Bind

theorem Counts.setFile (h : Counts s F I) (x : File) (hx : x.ref = 0 → x.type = .FD_NONE) :
    Counts { s with ftable := update s.ftable f x }
      (fun g => F g + (x.ref - (s.ftable f).ref) * one f g)
      (fun k => I k - (fileRef k x - fileRef k (s.ftable f))) := by
  refine ⟨fun g => ?_, fun g => ?_, fun k => ?_⟩
  · show (update s.ftable f x g).ref = fileRefs s g + _
    by_cases e : g = f
    · subst e
      rw [update_self, one_self]
      have := h.file g
      omega
    · rw [update_of_ne e, one_of_ne e, mul_zero, add_zero]
      exact h.file g
  · dsimp only
    by_cases e : g = f
    · subst e
      rw [update_self]
      exact hx
    · rw [update_of_ne e]
      exact h.unused g
  · unfold inodeRefs
    dsimp only
    rw [sum_update (fileRef k)]
    have := h.inode k
    unfold inodeRefs at this
    omega

theorem Counts.setProc (h : Counts s F I) (v : Option Proc) :
    Counts { s with procs := update s.procs p v }
      (fun g => F g - (procFiles g v - procFiles g (s.procs p)))
      (fun k => I k - (cwdRef k v - cwdRef k (s.procs p))) := by
  refine ⟨fun g => ?_, h.unused, fun k => ?_⟩
  · show (s.ftable g).ref = ∑ q, procFiles g (update s.procs p v q) + _
    rw [sum_update (procFiles g)]
    have := h.file g
    unfold fileRefs at this
    omega
  · unfold inodeRefs
    dsimp only
    rw [sum_update (cwdRef k)]
    have := h.inode k
    unfold inodeRefs at this
    omega

theorem Acc.setProc (h : Acc s F I) (v : Option Proc) : Acc { s with procs := update s.procs p v }
      (fun g => F g - (procFiles g v - procFiles g (s.procs p)))
      (fun k => I k - (cwdRef k v - cwdRef k (s.procs p))) :=
  ⟨h.counts.setProc v, h.pipes.congr (fun _ _ _ => Iff.rfl) rfl⟩

theorem PipesOk.setFile (h : PipesOk s) {x : File} (hx : ∀ pi w,
    IsEnd { s with ftable := update s.ftable f x } pi w f ↔ IsEnd s pi w f) :
    PipesOk { s with ftable := update s.ftable f x } := by
  refine h.congr (fun pi w g => ?_) rfl
  by_cases e : g = f
  · rw [e]
    exact hx pi w
  · unfold IsEnd
    dsimp only
    rw [update_of_ne e]

theorem Acc.setOff (h : Acc s F I) (f : FileId) (off : ℕ) :
    Acc { s with ftable := update s.ftable f { s.ftable f with off := off } } F I := by
  refine ⟨(h.counts.setFile _ ?_).congr (fun g => ?_) fun k => ?_, h.pipes.setFile fun pi w => ?_⟩
  · exact h.counts.unused f
  · rw [sub_self, zero_mul, add_zero]
  · exact (sub_eq_self.mpr (sub_self _)).symm
  · simp only [IsEnd, update_self]

theorem procFiles_update (x : Proc) (fd : Fd) (v : Option FileId) (g : FileId) :
    procFiles g (some { x with ofile := update x.ofile fd v }) =
      procFiles g (some x) + ((if v = some g then 1 else 0) - if x.ofile fd = some g then 1 else 0) :=
  sum_update (fun o : Option FileId => if o = some g then (1 : ℤ) else 0) x.ofile fd v

theorem Acc.setOfile (h : Acc s F I) {x : Proc} (hx : s.procs p = some x) (fd : Fd)
    (v : Option FileId) :
    Acc { s with
        procs := update s.procs p
          (some { x with ofile := update x.ofile fd v }) }
      (fun g => F g + (if x.ofile fd = some g then 1 else 0) - if v = some g then 1 else 0) I := by
  refine (h.setProc _).congr (fun g => ?_) fun k => ?_
  · rw [procFiles_update, hx]
    ring
  · rw [hx]
    show _ = I k - (cwdRef k (some x) - cwdRef k (some x))
    rw [sub_self, sub_zero]

/-! ## Open files -/

theorem fileRef_of_type {x : File} (h : x.type = .FD_NONE ∨ x.type = .FD_PIPE) (k : Ip) :
    fileRef k x = 0 := by
  refine if_neg ?_
  rintro ⟨-, ht, -⟩
  grind

theorem Acc.filealloc (h : Acc s F I) (h0 : (s.ftable f).ref = 0) :
    Acc { s with ftable := update s.ftable f { s.ftable f with ref := 1 } }
      (fun g => F g + one f g) I := by
  have ht := h.counts.unused f h0
  refine ⟨(h.counts.setFile _ fun e => ?_).congr (fun g => ?_) fun k => ?_,
    h.pipes.setFile fun pi w => ?_⟩
  · exact ht
  · rw [h0, sub_zero, one_mul]
  · have hnew : fileRef k { s.ftable f with ref := 1 } = 0 :=
      fileRef_of_type (by exact .inl ht) k
    rw [hnew, fileRef_of_type (.inl ht) k, sub_self, sub_zero]
  · simp [IsEnd, ht]

theorem Acc.setRef (h : Acc s F I) {n : ℤ} (hf : 0 < (s.ftable f).ref) (hn : 0 < n) :
    Acc { s with ftable := update s.ftable f { s.ftable f with ref := n } }
      (fun g => F g + (n - (s.ftable f).ref) * one f g) I := by
  refine ⟨(h.counts.setFile _ fun e => absurd e hn.ne').congr (fun _ => rfl) fun k => ?_,
    h.pipes.setFile fun pi w => ?_⟩
  · have : fileRef k { s.ftable f with ref := n } = fileRef k (s.ftable f) := by
      unfold fileRef
      simp only [hf, hn]
    rw [this, sub_self, sub_zero]
  · simp only [IsEnd, update_self, hf, hn]

/-- `fileclose` of the last reference, up to what is done with the inode or pipe. -/
theorem Counts.closeFile (h : Counts s F I) (h1 : (s.ftable f).ref = 1) : Counts { s with
        ftable := update s.ftable f { s.ftable f with ref := 0, type := .FD_NONE } }
      (fun g => F g - one f g) (fun k => I k + fileRef k (s.ftable f)) := by
  refine (h.setFile _ fun _ => rfl).congr (fun g => ?_) fun k => ?_
  · rw [h1]
    ring
  · have hnew : fileRef k { s.ftable f with ref := 0, type := .FD_NONE } = 0 :=
      fileRef_of_type (.inl rfl) k
    rw [hnew]
    ring

theorem isEnd_closed (pi : ℕ) (w : Bool) (g : FileId) : IsEnd { s with
        ftable := update s.ftable f { s.ftable f with ref := 0, type := .FD_NONE } }
      pi w g ↔ IsEnd s pi w g ∧ g ≠ f := by
  unfold IsEnd
  dsimp only
  by_cases e : g = f
  · subst e
    rw [update_self]
    simp
  · rw [update_of_ne e]
    simp [e]

theorem PipesOk.close (h : PipesOk s) (hf : IsEnd s (s.ftable f).pipe (s.ftable f).writable f) :
    Spec (pipeclose (s.ftable f).pipe (s.ftable f).writable)
      { s with ftable := update s.ftable f { s.ftable f with ref := 0, type := .FD_NONE } }
      (fun _ s' => PipesOk s' ∧ s'.itable = s.itable ∧ s'.procs = s.procs ∧
        s'.ftable = update s.ftable f { s.ftable f with ref := 0, type := .FD_NONE })
      PipesLive := by
  set pi := (s.ftable f).pipe
  set w := (s.ftable f).writable
  have hsome : (s.pipes pi).isSome := (h.page pi).mpr ⟨w, f, hf⟩
  obtain ⟨x, hx⟩ := Option.isSome_iff_exists.mp hsome
  obtain ⟨hread, hwrite⟩ := h.ends pi x hx
  unfold pipeclose
  rw [spec_get_bind]
  simp only [hx]
  set s1 : State := { s with
    ftable := update s.ftable f { s.ftable f with ref := 0, type := .FD_NONE } } with hs1
  set y : PipeEnds := if w then { x with writeopen := false } else { x with readopen := false } with hy
  -- what is open after the close
  have hclosed : ∀ g, ¬ IsEnd s1 pi w g := by
    intro g hg
    obtain ⟨hg, hne⟩ := (isEnd_closed pi w g).mp hg
    exact hne (h.unique pi w g f hg hf)
  have hopen : ∀ pi' w', (pi' ≠ pi ∨ w' ≠ w) → ∀ g, IsEnd s1 pi' w' g ↔ IsEnd s pi' w' g := by
    intro pi' w' hne g
    rw [isEnd_closed pi' w' g]
    refine and_iff_left_of_imp fun hg e => ?_
    subst e
    exact hne.elim (· hg.2.2.1.symm) (· hg.2.2.2.symm)
  have hend : ∀ w', (if w' then y.writeopen else y.readopen) = true ↔ ∃ g, IsEnd s1 pi w' g := by
    intro w'
    by_cases e : w' = w
    · rw [e]
      have hno : ¬ ∃ g, IsEnd s1 pi w g := fun ⟨g, hg⟩ => hclosed g hg
      have hyw : (if w then y.writeopen else y.readopen) = false := by
        rw [hy]
        cases w <;> rfl
      rw [hyw]
      exact ⟨fun h => absurd h (by decide), fun h => (hno h).elim⟩
    · simp only [hopen pi w' (.inr e)]
      have hyw : (if w' then y.writeopen else y.readopen) = if w' then x.writeopen else x.readopen := by
        rw [hy]
        cases w' <;> cases hw : w <;> first | rfl | exact absurd hw.symm e
      rw [hyw]
      cases w' with
      | true => exact hwrite
      | false => exact hread
  have hpage : ∀ {v}, (v.isSome ↔ ∃ w g, IsEnd s1 pi w g) → (∀ z, v = some z → z = y) →
      PipesOk { s1 with pipes := update s.pipes pi v } := by
    refine fun hv hz => h.setPage rfl (fun pi' e w' g => hopen pi' w' (.inl e) g) hv ?_ ?_
    · rintro z rfl
      rw [hz z rfl]
      exact ⟨hend false, hend true⟩
    · intro w' g g' hg hg'
      exact h.unique pi w' g g' ((isEnd_closed pi w' g).mp hg).1 ((isEnd_closed pi w' g').mp hg').1
  split_ifs with hboth
  · rw [setPipe, spec_modify]
    refine ⟨hpage ⟨nofun, fun ⟨w', hg⟩ => ?_⟩ nofun, rfl, rfl, rfl⟩
    have := (hend w').mpr hg
    rw [hboth.1, hboth.2, ite_self] at this
    cases this
  · rw [setPipe, spec_modify]
    refine ⟨hpage ⟨fun _ => ?_, fun _ => rfl⟩ fun z hz => (Option.some.inj hz).symm, rfl, rfl, rfl⟩
    cases hr : y.readopen with
    | true => exact ⟨false, (hend false).mp hr⟩
    | false =>
      cases hw : y.writeopen with
      | true => exact ⟨true, (hend true).mp hw⟩
      | false => exact (hboth ⟨hr, hw⟩).elim

theorem closeLast_spec (h : Acc s F I) (h1 : (s.ftable f).ref = 1) : Spec (closeLast (s.ftable f))
      { s with ftable := update s.ftable f { s.ftable f with ref := 0, type := .FD_NONE } }
      (fun _ s' => Acc s' (fun g => F g - one f g) I ∧ s'.procs = s.procs) PipesLive := by
  have hc := h.counts.closeFile h1
  unfold closeLast
  cases ht : (s.ftable f).type with
  | FD_NONE =>
    refine spec_pure.mpr ⟨⟨hc.congr (fun _ => rfl) fun k => ?_, h.pipes.setFile fun pi w => ?_⟩, rfl⟩
    · rw [fileRef_of_type (.inl ht), add_zero]
    · simp [IsEnd, ht]
  | FD_PIPE =>
    refine (h.pipes.close ⟨by omega, ht, rfl, rfl⟩).imp ?_
    rintro - s' ⟨hp, hi, hpr, hf⟩
    refine ⟨⟨⟨fun g => ?_, ?_, fun k => ?_⟩, hp⟩, hpr⟩
    · unfold fileRefs
      rw [hf, hpr]
      exact hc.file g
    · rw [hf]
      exact hc.unused
    · unfold inodeRefs
      rw [hf, hpr, hi]
      have := hc.inode k
      rw [fileRef_of_type (.inr ht), add_zero] at this
      exact this
  | FD_INODE | FD_DEVICE =>
    have hacc : Acc { s with
        ftable := update s.ftable f { s.ftable f with ref := 0, type := .FD_NONE } }
        (fun g => F g - one f g) (fun k => I k + one (s.ftable f).ip k) := by
      refine ⟨hc.congr (fun _ => rfl) fun k => ?_, h.pipes.setFile fun pi w => ?_⟩
      · have hone : fileRef k (s.ftable f) = one (s.ftable f).ip k := by
          unfold fileRef one
          simp [h1, ht, eq_comm]
        rw [hone]
      · simp [IsEnd, ht]
    refine hacc.then fun _ s1 h1 hs1 => ?_
    refine h1.bind adds_iput fun _ s2 h2 hs2 => ?_
    refine (h2.run quiet_endOp.adds).imp ?_
    rintro - s3 ⟨h3, hs3⟩
    refine ⟨h3.congr (fun _ => rfl) fun k => ?_, ?_⟩
    · ring
    · rw [hs3.procs, hs2.procs, hs1.procs]

/-- `fileclose` gives back one reference. -/
theorem fileclose_spec (h : Acc s F I) :
    Spec (fileclose f) s (fun _ s' => Acc s' (fun g => F g - one f g) I ∧ s'.procs = s.procs)
      PipesLive := by
  unfold fileclose
  rw [spec_get_bind]
  dsimp only
  split_ifs with h1 h2
  · exact spec_panic.mpr (by rintro ⟨⟩)
  · rw [setFile, spec_modify]
    refine ⟨(h.setRef (by omega) h2).congr (fun g => ?_) fun _ => rfl, rfl⟩
    ring
  · rw [spec_bind, setFile, spec_modify]
    exact closeLast_spec h (by omega)

theorem closeAll_spec {fs : List FileId} (h : Acc s F I) : Spec (closeAll fs) s
      (fun _ s' => Acc s' (fun g => F g - (fs.map fun f => one f g).sum) I ∧ s'.procs = s.procs)
      PipesLive := by
  induction fs generalizing s F with
  | nil =>
    refine spec_pure.mpr ⟨h.congr (fun g => ?_) fun _ => rfl, rfl⟩
    simp
  | cons f fs ih =>
    refine (fileclose_spec h).bind ?_
    rintro - s1 ⟨h1, hp1⟩
    refine (ih h1).imp ?_
    rintro - s2 ⟨h2, hp2⟩
    refine ⟨h2.congr (fun g => ?_) fun _ => rfl, hp2.trans hp1⟩
    rw [List.map_cons, List.sum_cons]
    ring

theorem spec_filealloc {Q : Option FileId → State → Prop} (hnone : Q none s)
    (hsome : ∀ f, (s.ftable f).ref = 0 →
      Q (some f) { s with ftable := update s.ftable f { s.ftable f with ref := 1 } }) :
    Spec filealloc s Q PipesLive := by
  unfold filealloc
  rw [spec_get_bind]
  split
  · exact spec_pure.mpr hnone
  · rename_i f hf
    rw [spec_bind, setFile, spec_modify, spec_pure]
    exact hsome f (by simpa using List.find?_some hf)

theorem filedup_spec (h : Acc s F I) :
    Spec (filedup f) s (fun _ s' => Acc s' (fun g => F g + one f g) I ∧ s'.procs = s.procs)
      PipesLive := by
  unfold filedup
  rw [spec_get_bind]
  dsimp only
  split_ifs
  · exact spec_panic.mpr (by rintro ⟨⟩)
  · rw [setFile, spec_modify]
    refine ⟨(h.setRef (by omega) (by omega)).congr (fun g => ?_) fun _ => rfl, rfl⟩
    ring

/-! ## Descriptors -/

theorem spec_getProc {Q : Proc → State → Prop} (h : ∀ x, s.procs p = some x → Q x s) :
    Spec (getProc p) s Q PipesLive := by
  unfold getProc
  rw [spec_get_bind]
  split
  · rename_i x hx
    exact spec_pure.mpr (h x hx)
  · exact spec_panic.mpr (by rintro ⟨⟩)

theorem spec_setOfile {fd : Fd} {v : Option FileId} {Q : Unit → State → Prop}
    (h : ∀ x, s.procs p = some x → Q () { s with
        procs := update s.procs p
          (some { x with ofile := update x.ofile fd v }) }) :
    Spec (setOfile p fd v) s Q PipesLive := by
  unfold setOfile
  rw [spec_bind]
  refine spec_getProc fun x hx => ?_
  rw [setProc, spec_modify]
  exact h x hx

theorem spec_argfd {fd : ℤ} {Q : Option (Fd × FileId) → State → Prop} (hnone : Q none s)
    (hsome : ∀ x fd f, s.procs p = some x → x.ofile fd = some f → Q (some (fd, f)) s) :
    Spec (argfd p fd) s Q PipesLive := by
  unfold argfd
  rw [spec_bind]
  refine spec_getProc fun x hx => ?_
  split_ifs with hfd
  · rw [spec_pure]
    cases hf : x.ofile ⟨fd.toNat, by omega⟩ with
    | none => exact hnone
    | some f => exact hsome x _ f hx hf
  · exact spec_pure.mpr hnone

theorem spec_fdalloc {Q : Option Fd → State → Prop} (hnone : Q none s)
    (hsome : ∀ x fd, s.procs p = some x → x.ofile fd = none → Q (some fd) { s with
        procs := update s.procs p
          (some { x with ofile := update x.ofile fd (some f) }) }) :
    Spec (fdalloc p f) s Q PipesLive := by
  unfold fdalloc
  rw [spec_bind]
  refine spec_getProc fun x hx => ?_
  split
  · exact spec_pure.mpr hnone
  · rename_i fd hfd
    have hfree : x.ofile fd = none := by simpa using List.find?_some hfd
    rw [spec_bind]
    refine spec_setOfile fun y hy => ?_
    obtain rfl : y = x := Option.some.inj (hy.symm.trans hx)
    exact spec_pure.mpr (hsome y fd hy hfree)

theorem ite_some_eq (f g : FileId) : (if some f = some g then (1 : ℤ) else 0) = one f g := by
  unfold one
  simp [eq_comm]

theorem Acc.fdalloc (h : Acc s F I) {x : Proc} (hx : s.procs p = some x) {fd : Fd}
    (hfd : x.ofile fd = none) :
    Acc { s with
        procs := update s.procs p
          (some { x with ofile := update x.ofile fd (some f) }) }
      (fun g => F g - one f g) I := by
  refine (h.setOfile hx fd (some f)).congr (fun g => ?_) fun _ => rfl
  rw [hfd, ite_some_eq]
  simp

theorem Acc.clearFd (h : Acc s F I) {x : Proc} (hx : s.procs p = some x) {fd : Fd}
    (hfd : x.ofile fd = some f) :
    Acc { s with
        procs := update s.procs p
          (some { x with ofile := update x.ofile fd none }) }
      (fun g => F g + one f g) I := by
  refine (h.setOfile hx fd none).congr (fun g => ?_) fun _ => rfl
  rw [hfd, ite_some_eq]
  simp

/-! ## Pipes -/

theorem PipesOk.create (h : PipesOk s) {pi : ℕ} (hpi : s.pipes pi = none) {f0 f1 : FileId}
    (hne : f0 ≠ f1) (h0 : (s.ftable f0).type ≠ .FD_PIPE) (h1 : (s.ftable f1).type ≠ .FD_PIPE)
    {x0 x1 : File} (hx0 : 0 < x0.ref ∧ x0.type = .FD_PIPE ∧ x0.pipe = pi ∧ x0.writable = false)
    (hx1 : 0 < x1.ref ∧ x1.type = .FD_PIPE ∧ x1.pipe = pi ∧ x1.writable = true) :
    PipesOk { s with
      pipes := update s.pipes pi (some ⟨true, true⟩)
      ftable := update (update s.ftable f0 x0) f1 x1 } := by
  set s' : State := { s with
    pipes := update s.pipes pi (some ⟨true, true⟩)
    ftable := update (update s.ftable f0 x0) f1 x1 }
  have hnone : ∀ w g, ¬ IsEnd s pi w g := by
    intro w g hg
    have := (h.page pi).mpr ⟨w, g, hg⟩
    rw [hpi] at this
    cases this
  have hf0 : IsEnd s' pi false f0 := by
    simp only [IsEnd, s', update_of_ne hne, update_self]
    exact hx0
  have hf1 : IsEnd s' pi true f1 := by
    simp only [IsEnd, s', update_self]
    exact hx1
  have hother : ∀ pi' w g, g ≠ f0 → g ≠ f1 → (IsEnd s' pi' w g ↔ IsEnd s pi' w g) := by
    intro pi' w g e0 e1
    simp only [IsEnd, s', update_of_ne e1, update_of_ne e0]
  have hnew : ∀ {w g}, IsEnd s' pi w g → g = if w then f1 else f0 := by
    intro w g hg
    by_cases e0 : g = f0
    · rw [e0] at hg
      rw [e0, ← hg.2.2.2, hf0.2.2.2]
      rfl
    · by_cases e1 : g = f1
      · rw [e1] at hg
        rw [e1, ← hg.2.2.2, hf1.2.2.2]
        rfl
      · exact absurd ((hother pi w g e0 e1).mp hg) (hnone w g)
  refine h.setPage rfl (fun pi' e w g => ?_) ⟨fun _ => ⟨false, f0, hf0⟩, fun _ => rfl⟩ ?_ ?_
  · by_cases e0 : g = f0
    · rw [e0]
      exact ⟨fun hg => absurd (hg.2.2.1.symm.trans hf0.2.2.1) e, fun hg => absurd hg.2.1 h0⟩
    · by_cases e1 : g = f1
      · rw [e1]
        exact ⟨fun hg => absurd (hg.2.2.1.symm.trans hf1.2.2.1) e, fun hg => absurd hg.2.1 h1⟩
      · exact hother pi' w g e0 e1
  · rintro x ⟨⟩
    exact ⟨⟨fun _ => ⟨f0, hf0⟩, fun _ => rfl⟩, ⟨fun _ => ⟨f1, hf1⟩, fun _ => rfl⟩⟩
  · intro w g g' hg hg'
    rw [hnew hg, hnew hg']

end TatakOS.Fs
