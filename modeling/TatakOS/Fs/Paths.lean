import TatakOS.Fs.Directory

/-!
# Resolving paths

A path is a list of parts, and a part is looked up in the inode that the parts before it lead to.
`namei` and `nameiparent` find what this leads to, and do not change anything else than the inode
table.
-/

namespace TatakOS.Fs

open Function
open ProcTable (Slot)

/-! ## The parts of a path -/

/-- What stands between slashes, in the length that the kernel looks at. -/
def parts (path : List UInt8) : List (List UInt8) :=
  ((path.splitOn slash).filter (· ≠ [])).map (·.take DIRSIZ)

@[simp] theorem parts_nil : parts [] = [] := rfl

theorem parts_append (p q : List UInt8) : parts (p ++ slash :: q) = parts p ++ parts q := by
  unfold parts
  rw [List.splitOn_append_cons_self, List.filter_append, List.map_append]

theorem parts_slash (q : List UInt8) : parts (slash :: q) = parts q := parts_append [] q

theorem parts_dropWhile (path : List UInt8) : parts (path.dropWhile (· = slash)) = parts path := by
  induction path with
  | nil => rfl
  | cons c path ih =>
    by_cases hc : c = slash
    · rw [List.dropWhile_cons_of_pos (by simpa using hc), ih, hc, parts_slash]
    · rw [List.dropWhile_cons_of_neg (by simpa using hc)]

variable {w : List UInt8}

theorem parts_element (hne : w ≠ []) (hw : slash ∉ w) : parts w = [w.take DIRSIZ] := by
  unfold parts
  rw [List.splitOn_eq_singleton hw]
  simp [hne]

/-- Behind the first element there is nothing, or a slash. -/
theorem dropWhile_ne_slash (path : List UInt8) : path.dropWhile (· ≠ slash) = [] ∨
    ∃ q, path.dropWhile (· ≠ slash) = slash :: q := by
  cases h : path.dropWhile (· ≠ slash) with
  | nil => exact .inl rfl
  | cons c q =>
    have hne : path.dropWhile (· ≠ slash) ≠ [] := by
      rw [h]
      nofun
    have hhead := List.head_dropWhile_not (· ≠ slash) hne
    simp only [h, List.head_cons] at hhead
    have hc : c = slash := by simpa using hhead
    exact .inr ⟨q, by rw [hc]⟩

theorem parts_cons {c : UInt8} (hc : c ≠ slash) (cs : List UInt8) :
    parts (c :: cs) = ((c :: cs).takeWhile (· ≠ slash)).take DIRSIZ ::
      parts ((c :: cs).dropWhile (· ≠ slash)) := by
  have hsplit := List.takeWhile_append_dropWhile (p := (· ≠ slash)) (l := c :: cs)
  have hne : (c :: cs).takeWhile (· ≠ slash) ≠ [] := by
    rw [List.takeWhile_cons_of_pos (by simpa using hc)]
    nofun
  have hw : slash ∉ (c :: cs).takeWhile (· ≠ slash) := by
    intro hmem
    simpa using List.mem_takeWhile_imp hmem
  nth_rewrite 1 [← hsplit]
  obtain hd | ⟨q, hd⟩ := dropWhile_ne_slash (c :: cs)
  · rw [hd, List.append_nil, parts_element hne hw, parts_nil]
  · rw [hd, parts_append, parts_element hne hw, parts_slash]
    rfl

theorem skipelem_none {path : List UInt8} (h : skipelem path = none) : parts path = [] := by
  rw [← parts_dropWhile]
  unfold skipelem at h
  cases hd : path.dropWhile (· = slash) with
  | nil => rfl
  | cons c cs =>
    rw [hd] at h
    cases h

theorem head_dropWhile_slash {path cs : List UInt8} {c : UInt8}
    (h : path.dropWhile (· = slash) = c :: cs) : c ≠ slash := by
  have hne : path.dropWhile (· = slash) ≠ [] := by
    rw [h]
    nofun
  have hhead := List.head_dropWhile_not (· = slash) hne
  simpa [h] using hhead

theorem skipelem_some {path name rest : List UInt8} (h : skipelem path = some (name, rest)) :
    parts path = name :: parts rest ∧ rest.length < path.length ∧
      (rest = [] ↔ parts rest = []) := by
  unfold skipelem at h
  cases hd : path.dropWhile (· = slash) with
  | nil =>
    rw [hd] at h
    cases h
  | cons c cs =>
    rw [hd] at h
    obtain ⟨rfl, rfl⟩ := Prod.mk.inj (Option.some.inj h)
    have hc := head_dropWhile_slash hd
    refine ⟨?_, ?_, fun e => by rw [e, parts_nil], fun e => ?_⟩
    · rw [← parts_dropWhile path, hd, parts_cons hc, parts_dropWhile]
    · have h1 : ((c :: cs).dropWhile (· ≠ slash)).length ≤ cs.length := by
        rw [List.dropWhile_cons_of_pos (by simpa using hc)]
        exact (List.dropWhile_suffix _).sublist.length_le
      have h2 : (((c :: cs).dropWhile (· ≠ slash)).dropWhile (· = slash)).length ≤
          ((c :: cs).dropWhile (· ≠ slash)).length := (List.dropWhile_suffix _).sublist.length_le
      have h3 : (path.dropWhile (· = slash)).length ≤ path.length :=
        (List.dropWhile_suffix _).sublist.length_le
      rw [hd, List.length_cons] at h3
      omega
    · cases hr : ((c :: cs).dropWhile (· ≠ slash)).dropWhile (· = slash) with
      | nil => rfl
      | cons b bs =>
        rw [hr, parts_cons (head_dropWhile_slash hr)] at e
        cases e

/-! ## The buffer for a part -/

/-- What `skipelem` leaves in `name`: 14 bytes, which may hold an older part. -/
def copyName (old w : List UInt8) : List UInt8 :=
  if DIRSIZ ≤ w.length then w.take DIRSIZ else w ++ 0 :: old.drop (w.length + 1)

theorem cut_copyName (hw : (0 : UInt8) ∉ w) (old : List UInt8) :
    cut (copyName old w) = w.take DIRSIZ := by
  have hnonul : (0 : UInt8) ∉ w.take DIRSIZ := fun h => hw (List.mem_of_mem_take h)
  unfold copyName
  split_ifs with hlen
  · rw [cut_of_nonul hnonul, List.take_take, Nat.min_self]
  · have hall : ∀ c ∈ w, decide (c ≠ 0) = true := by
      intro c hc
      rw [decide_eq_true_iff]
      rintro rfl
      exact hw hc
    unfold cut
    rw [List.take_append, List.take_of_length_le (by omega),
      show DIRSIZ - w.length = DIRSIZ - w.length - 1 + 1 by omega, List.take_succ_cons,
      List.takeWhile_append_of_pos hall, List.takeWhile_cons_of_neg (by decide), List.append_nil]

/-- A name that `dirlink` has stored is found by the parts of paths with the same first 14 bytes,
whatever an older part has left in the buffer. -/
theorem strncmp_strncpy (hw : (0 : UInt8) ∉ w) {v : List UInt8} (hv : (0 : UInt8) ∉ v)
    (old : List UInt8) :
    strncmp DIRSIZ (copyName old w) (strncpy DIRSIZ v) = 0 ↔ w.take DIRSIZ = v.take DIRSIZ := by
  rw [← decide_eq_true_iff (p := strncmp _ _ _ = 0), ← namecmp_eq_strncmp, namecmp,
    decide_eq_true_iff, ← nameField_eq_strncpy hv, cut_copyName hw, cut_nameField hv]

/-- Names of 14 and of 15 bytes, over an older part. -/
theorem strncmp_strncpy_long : strncmp DIRSIZ
      (copyName [98, 98] (List.replicate 14 97 ++ [99])) (strncpy DIRSIZ (List.replicate 14 97)) = 0 ∧
    strncmp DIRSIZ (copyName [98, 98] (List.replicate 14 97)) (strncpy DIRSIZ
      (List.replicate 13 97 ++ [100, 101])) ≠ 0 :=
  ⟨(strncmp_strncpy (by decide) (by decide) _).mpr rfl,
    mt (strncmp_strncpy (by decide) (by decide) _).mp (by decide)⟩

/-! ## Resolving -/

section Resolve

variable (d : ℕ → Block) (V : ℕ → Dinode)

/-- Look up one part. -/
def lookupIn (i : ℕ) (name : List UInt8) : Option ℕ :=
  if (V i).type = T_DIR then (lookupEntry (bytesOf d (V i)) name).map Prod.snd else none

/-- Look up one part after the other. -/
def resolve (i : ℕ) (ps : List (List UInt8)) : Option ℕ := ps.foldlM (lookupIn d V) i

/-- Where the parts of a path are looked up from. -/
def startInum (cwd : ℕ) (path : List UInt8) : ℕ :=
  if path.head? = some slash then ROOTINO else cwd

/-- The inode that a path leads to. -/
def resolvePath (cwd : ℕ) (path : List UInt8) : Option ℕ :=
  resolve d V (startInum cwd path) (parts path)

/-- The directory that all parts but the last lead to, and the last part. -/
def resolveParent (cwd : ℕ) (path : List UInt8) : Option (ℕ × List UInt8) :=
  (parts path).getLast?.bind fun last =>
    ((resolve d V (startInum cwd path) (parts path).dropLast).filter fun i =>
      (V i).type = T_DIR).map fun i => (i, last)

theorem resolvePath_append {p q : List UInt8} (hp : p ≠ []) (hq : q.head? ≠ some slash) (cwd : ℕ) :
    resolvePath d V cwd (p ++ slash :: q) =
      (resolvePath d V cwd p).bind fun i => resolvePath d V i q := by
  have hstart : startInum cwd (p ++ slash :: q) = startInum cwd p := by
    unfold startInum
    rw [List.head?_append_of_ne_nil _ hp]
  have hqstart : ∀ i, startInum i q = i := fun i => if_neg hq
  unfold resolvePath resolve
  simp only [hqstart]
  rw [hstart, parts_append, List.foldlM_append]
  rfl

/-- What `namex` looks for. -/
def target (parent : Bool) : ℕ → List (List UInt8) → List UInt8 → Option (ℕ × List UInt8)
  | i, [], name => if parent then none else some (i, name)
  | i, name :: ps, _ =>
    if (V i).type = T_DIR then
      if parent ∧ ps = [] then some (i, name)
      else (lookupIn d V i name).bind fun j => target parent j ps name
    else none

theorem target_path (i : ℕ) (ps : List (List UInt8)) (name : List UInt8) :
    (target d V false i ps name).map Prod.fst = resolve d V i ps := by
  induction ps generalizing i name with
  | nil => rfl
  | cons n ps ih =>
    unfold resolve at ih ⊢
    rw [List.foldlM_cons, target]
    by_cases hdir : (V i).type = T_DIR
    · rw [if_pos hdir, if_neg (by simp), Option.map_bind]
      refine congrArg _ (funext fun j => ?_)
      exact ih j n
    · rw [if_neg hdir, lookupIn, if_neg hdir]
      rfl

theorem target_parent (i : ℕ) (ps : List (List UInt8)) (name : List UInt8) :
    target d V true i ps name = ps.getLast?.bind fun last =>
      ((resolve d V i ps.dropLast).filter fun j => (V j).type = T_DIR).map fun j => (j, last) := by
  induction ps generalizing i name with
  | nil => rfl
  | cons n ps ih =>
    rw [target]
    cases ps with
    | nil =>
      by_cases hdir : (V i).type = T_DIR <;> simp [hdir, resolve, Option.filter]
    | cons m ps =>
      by_cases hdir : (V i).type = T_DIR
      · rw [if_pos hdir, if_neg (by simp), List.getLast?_cons_cons, List.dropLast_cons_cons]
        unfold resolve at ih ⊢
        rw [List.foldlM_cons]
        cases lookupIn d V i n with
        | none =>
          simp
        | some j => exact ih j n
      · rw [if_neg hdir, List.dropLast_cons_cons]
        unfold resolve
        rw [List.foldlM_cons, lookupIn, if_neg hdir]
        simp

end Resolve

/-! ## The inode table on the way -/

variable {s s0 s' : State} {V : ℕ → Dinode} {T : Set ℕ} {ip : Ip} {i : ℕ} {held : List (Ip × ℕ)}
  {lk : Option Ip} {E : Panic × State → Prop}

/-- References to the entries of a list, with their inode numbers, have been added to `s0`. -/
structure Walk (V : ℕ → Dinode) (s0 : State) (held : List (Ip × ℕ)) (lk : Option Ip) (s : State) :
    Prop where
  only : OnlyTable s0 s
  table : Table s V
  ref : ∀ k, (s.itable k).ref = (s0.itable k).ref + (held.map Prod.fst).count k
  inum : ∀ x ∈ held, (s.itable x.1).inum = x.2
  /-- Entries in use are for the same inodes. -/
  kept : ∀ k, 0 < (s0.itable k).ref → (s.itable k).inum = (s0.itable k).inum
  locked : ∀ k, (s.itable k).locked = true ↔ lk = some k

theorem Walk.perm {held' : List (Ip × ℕ)} (h : Walk V s0 held lk s) (hp : held.Perm held') :
    Walk V s0 held' lk s where
  only := h.only
  table := h.table
  ref k := by
    rw [h.ref, (hp.map Prod.fst).count_eq]
  inum x hx := h.inum x (hp.mem_iff.mpr hx)
  kept := h.kept
  locked := h.locked

theorem spec_ilock_valid {Q : Unit → State → Prop} (href : 1 ≤ (s.itable ip).ref)
    (hlock : (s.itable ip).locked = false) (hvalid : (s.itable ip).valid = true)
    (h : Q () { s with
      itable := update s.itable ip { s.itable ip with locked := true } }) :
    Spec (ilock ip) s Q E := by
  unfold ilock
  rw [spec_get_bind]
  rw [if_neg (by omega), hlock, if_neg (by decide), if_pos hvalid, setInode, spec_modify]
  exact h

theorem Table.set (h : Table s V) {y : Inode} (hinum : y.inum = (s.itable ip).inum)
    (href : 0 < y.ref → 0 < (s.itable ip).ref)
    (hmem : 0 < y.ref → y.valid = true → y.din = V y.inum ∧ (V y.inum).type ≠ 0)
    (hlock : y.locked = true → 0 < y.ref ∧ y.valid = true) :
    Table { s with itable := update s.itable ip y } V := by
  have hcases : ∀ k, update s.itable ip y k = s.itable k ∨ k = ip ∧ update s.itable ip y k = y := by
    intro k
    by_cases e : k = ip
    · exact .inr ⟨e, by rw [e, update_self]⟩
    · exact .inl (update_of_ne e ..)
  have hold : ∀ k, 0 < (update s.itable ip y k).ref → 0 < (s.itable k).ref ∧
      (update s.itable ip y k).inum = (s.itable k).inum := by
    intro k hk
    obtain e | ⟨rfl, e⟩ := hcases k <;> rw [e] at hk ⊢
    · exact ⟨hk, rfl⟩
    · exact ⟨href hk, hinum⟩
  constructor <;> dsimp only
  · intro k hk
    obtain ⟨h0, e⟩ := hold k hk
    rw [e]
    exact h.bound k h0
  · intro j k hj hk
    obtain ⟨hj0, ej⟩ := hold j hj
    obtain ⟨hk0, ek⟩ := hold k hk
    rw [ej, ek]
    exact h.unique j k hj0 hk0
  · intro k hk hv
    obtain e | ⟨rfl, e⟩ := hcases k <;> rw [e] at hk hv ⊢
    · exact h.mem k hk hv
    · exact (hmem hk hv).1
  · intro k hk hv
    obtain e | ⟨rfl, e⟩ := hcases k <;> rw [e] at hk hv ⊢
    · exact h.typed k hk hv
    · exact (hmem hk hv).2
  · intro k hk
    obtain e | ⟨rfl, e⟩ := hcases k <;> rw [e] at hk ⊢
    · exact h.locked k hk
    · exact hlock hk

section Walk

variable (hrefs : ∀ k, 0 ≤ (s0.itable k).ref)
include hrefs

theorem Walk.pos (h : Walk V s0 ((ip, i) :: held) lk s) : 0 < (s.itable ip).ref := by
  have h0 := hrefs ip
  have h1 := h.ref ip
  rw [List.map_cons, List.count_cons_self] at h1
  push_cast at h1
  omega

theorem Walk.gets (h : Walk V s0 held lk s) (hg : Gets i ip s s') (hi : i < s0.sb.ninodes) :
    Walk V s0 ((ip, i) :: held) lk s' := by
  have hsb : s.sb = s0.sb := by rw [h.only]
  have hkept : ∀ k, 0 < (s.itable k).ref → (s'.itable k).inum = (s.itable k).inum := by
    intro k hk
    rw [hg.kept k hk]
  constructor
  · exact h.only.trans hg.only
  · exact hg.table h.table (by rwa [hsb])
  · intro k
    rw [hg.ref, h.ref, List.map_cons, List.count_cons]
    simp only [beq_iff_eq, eq_comm (a := ip)]
    push_cast
    ring
  · rintro x (_ | ⟨_, hx⟩)
    · exact hg.inum
    · have h0 := hrefs x.1
      have h1 := h.ref x.1
      have h2 : 0 < (held.map Prod.fst).count x.1 :=
        List.count_pos_iff.mpr (List.mem_map_of_mem hx)
      rw [hkept x.1 (by omega)]
      exact h.inum x hx
  · intro k hk
    have h1 := h.ref k
    rw [hkept k (by omega)]
    exact h.kept k hk
  · intro k
    rw [hg.locked]
    exact h.locked k

theorem Walk.setLock {y : Inode} {lk' : Option Ip} (h : Walk V s0 ((ip, i) :: held) lk s)
    (hinum : y.inum = (s.itable ip).inum) (href : y.ref = (s.itable ip).ref)
    (hmem : y.valid = true → y.din = V y.inum ∧ (V y.inum).type ≠ 0)
    (hvalid : y.locked = true → y.valid = true) (hlock : y.locked = true ↔ lk' = some ip)
    (hother : ∀ k, k ≠ ip → (lk' = some k ↔ lk = some k)) :
    Walk V s0 ((ip, i) :: held) lk' { s with itable := update s.itable ip y } := by
  have hpos := h.pos hrefs
  have hsame : ∀ k, (update s.itable ip y k).ref = (s.itable k).ref ∧
      (update s.itable ip y k).inum = (s.itable k).inum := by
    intro k
    by_cases e : k = ip
    · rw [e, update_self]
      exact ⟨href, hinum⟩
    · rw [update_of_ne e]
      exact ⟨rfl, rfl⟩
  constructor
  · exact h.only.trans rfl
  · exact h.table.set hinum (fun _ => hpos) (fun _ => hmem) fun hl => ⟨href ▸ hpos, hvalid hl⟩
  · intro k
    exact (hsame k).1.trans (h.ref k)
  · intro x hx
    exact (hsame x.1).2.trans (h.inum x hx)
  · intro k hk
    exact (hsame k).2.trans (h.kept k hk)
  · intro k
    dsimp only
    by_cases e : k = ip
    · rw [e, update_self]
      exact hlock
    · rw [update_of_ne e, hother k e]
      exact h.locked k

theorem Walk.ilock (h0 : Consistent none s0 V) (h : Walk V s0 ((ip, i) :: held) none s)
    (htype : (V i).type ≠ 0) :
    Spec (ilock ip) s (fun _ s' => Walk V s0 ((ip, i) :: held) (some ip) s') E := by
  have hpos := h.pos hrefs
  have hin : (s.itable ip).inum = i := h.inum (ip, i) (List.mem_cons_self ..)
  have hlk : (s.itable ip).locked = false := by
    rw [← Bool.not_eq_true, h.locked]
    nofun
  have hother : ∀ k, k ≠ ip → (some ip = some k ↔ none = some k) := by
    intro k hk
    simp [Ne.symm hk]
  by_cases hv : (s.itable ip).valid = true
  · refine spec_ilock_valid (by omega) hlk hv ?_
    exact h.setLock hrefs rfl rfl (fun _ => ⟨h.table.mem ip hpos hv, h.table.typed ip hpos hv⟩)
      (fun _ => hv) (by simp) hother
  · have hdin : dinode s.sb s.blk (s.itable ip).inum = V (s.itable ip).inum :=
      (h0.onlyTable h.only h.table).clean _ (h.table.bound ip hpos) (by nofun)
    refine spec_ilock_load (by omega) hlk (by simpa using hv) (by rwa [hdin, hin]) ?_
    exact h.setLock hrefs rfl rfl (fun _ => ⟨hdin, by rwa [hin]⟩) (fun _ => rfl) (by simp) hother

theorem Walk.iunlock (h : Walk V s0 ((ip, i) :: held) (some ip) s) :
    Spec (iunlock ip) s (fun _ s' => Walk V s0 ((ip, i) :: held) none s') E := by
  have hpos := h.pos hrefs
  have hlk : (s.itable ip).locked = true := (h.locked ip).mpr rfl
  have hv := (h.table.locked ip hlk).2
  refine spec_iunlock (by omega) hlk ?_
  refine h.setLock hrefs rfl rfl (fun _ => ⟨h.table.mem ip hpos hv, h.table.typed ip hpos hv⟩)
    (by simp) (by simp) fun k hk => ?_
  simp [Ne.symm hk]

/-- The inode is not freed: it has a link, or another reference. -/
theorem Walk.iput (h : Walk V s0 ((ip, i) :: held) none s)
    (hkeep : (V i).nlink ≠ 0 ∨ 0 < (s0.itable ip).ref) :
    Spec (iput ip) s (fun _ s' => Walk V s0 held none s') E := by
  have hpos := h.pos hrefs
  have hin : (s.itable ip).inum = i := h.inum (ip, i) (List.mem_cons_self ..)
  have href := h.ref ip
  rw [List.map_cons, List.count_cons_self] at href
  push_cast at href
  apply spec_iput_keep
  · rintro ⟨h1, hv, hn⟩
    rw [h.table.mem ip hpos hv, hin] at hn
    obtain hlink | h0 := hkeep
    · exact hlink hn
    · omega
  have hcount : ∀ k, k ≠ ip → (((ip, i) :: held).map Prod.fst).count k =
      (held.map Prod.fst).count k := fun k hk => List.count_cons_of_ne (Ne.symm hk)
  have hinum : ∀ k, (update s.itable ip { s.itable ip with ref := (s.itable ip).ref - 1 }
      k).inum = (s.itable k).inum := by
    intro k
    by_cases e : k = ip
    · rw [e, update_self]
    · rw [update_of_ne e]
  have hlocked : ∀ k, (update s.itable ip { s.itable ip with ref := (s.itable ip).ref - 1 }
      k).locked = (s.itable k).locked := by
    intro k
    by_cases e : k = ip
    · rw [e, update_self]
    · rw [update_of_ne e]
  constructor
  · exact h.only.trans rfl
  · refine h.table.set rfl (fun _ => hpos)
      (fun _ hv => ⟨h.table.mem ip hpos hv, h.table.typed ip hpos hv⟩) fun hl => ?_
    exact absurd ((h.locked ip).mp hl) (by nofun)
  · intro k
    dsimp only
    by_cases e : k = ip
    · rw [e, update_self, href]
      ring
    · rw [update_of_ne e, h.ref, hcount k e]
  · intro x hx
    exact (hinum x.1).trans (h.inum x (List.mem_cons_of_mem _ hx))
  · intro k hk
    exact (hinum k).trans (h.kept k hk)
  · intro k
    rw [← h.locked k, ← hlocked k]

theorem Walk.iunlockput (h : Walk V s0 ((ip, i) :: held) (some ip) s)
    (hkeep : (V i).nlink ≠ 0 ∨ 0 < (s0.itable ip).ref) :
    Spec (iunlockput ip) s (fun _ s' => Walk V s0 held none s') E :=
  (h.iunlock hrefs).bind fun _ _ h' => h'.iput hrefs hkeep

end Walk

/-! ## The walk -/

/-- Inodes `T` that are in use, with the root, and with all inodes that directories among them
refer to. -/
structure FileTree (s : State) (V : ℕ → Dinode) (T : Set ℕ) : Prop where
  root : ROOTINO ∈ T ∧ (V ROOTINO).nlink ≠ 0
  bound : ∀ i ∈ T, i < s.sb.ninodes
  typed : ∀ i ∈ T, (V i).type ≠ 0
  whole : ∀ i ∈ T, (V i).type = T_DIR → 16 ∣ (V i).size
  closed : ∀ i ∈ T, (V i).type = T_DIR → ∀ k < (V i).size / 16, ∀ name j,
    parse (dirEntry (bytesOf s.blk (V i)) k) = some (name, j) → j ∈ T ∧ (V j).nlink ≠ 0

/-- Two entries of the inode table are free. -/
def TwoFree (s : State) : Prop := ∃ j k, j ≠ k ∧ (s.itable j).ref = 0 ∧ (s.itable k).ref = 0

/-- The table has too few free entries. -/
def TableFull (s0 : State) (e : Panic × State) : Prop := e.1 = .tableFull ∧ ¬ TwoFree s0

theorem Walk.full (h : Walk V s0 held lk s) (hone : held.length ≤ 1) (hno : ¬ CanGet s i) :
    TableFull s0 (.tableFull, s) := by
  refine ⟨rfl, ?_⟩
  rintro ⟨j, k, hjk, hj, hk⟩
  have hfree : ∀ l, (s0.itable l).ref = 0 → l ∈ held.map Prod.fst := by
    intro l hl
    by_contra hmem
    refine hno ⟨l, .inl ?_⟩
    rw [h.ref, hl, List.count_eq_zero.mpr hmem]
    rfl
  match held, hone, hfree j hj, hfree k hk with
  | [x], _, h1, h2 =>
    rw [List.map_singleton, List.mem_singleton] at h1 h2
    exact hjk (h1.trans h2.symm)

/-- What a call of `namex` ends with. -/
def Arrives (V : ℕ → Dinode) (s0 : State) :
    Option (ℕ × List UInt8) → Option (Ip × List UInt8) → State → Prop
  | some x, some r, s => r.2 = x.2 ∧ Walk V s0 [(r.1, x.1)] none s
  | none, none, s => Walk V s0 [] none s
  | _, _, _ => False

theorem FileTree.lookupIn {j : ℕ} {name : List UInt8} (ht : FileTree s V T) (hi : i ∈ T)
    (h : Fs.lookupIn s.blk V i name = some j) : j ∈ T ∧ (V j).nlink ≠ 0 := by
  unfold Fs.lookupIn at h
  split_ifs at h with hdir
  obtain ⟨⟨k, j'⟩, hk, rfl⟩ := Option.map_eq_some_iff.mp h
  obtain ⟨hlt, hj, h0, -⟩ := lookupEntry_eq_some hk
  rw [bytesOf_length] at hlt
  have hparse : parse (dirEntry (bytesOf s.blk (V i)) k) =
      some (cut (deName (dirEntry (bytesOf s.blk (V i)) k)), j') := by
    rw [parse, hj, if_neg h0]
  exact ht.closed i hi hdir k hlt _ j' hparse

/-- The loop of `namex`, with a reference to the inode reached so far. -/
theorem namexLoop_spec (h0 : Consistent none s0 V) (hrefs : ∀ k, 0 ≤ (s0.itable k).ref)
    (ht : FileTree s0 V T) (parent : Bool) {n : ℕ} {path name : List UInt8} (hn : path.length < n)
    (hi : i ∈ T) (hkeep : (V i).nlink ≠ 0 ∨ 0 < (s0.itable ip).ref)
    (h : Walk V s0 [(ip, i)] none s) :
    Spec (namexLoop parent n ip path name) s
      (Arrives V s0 (target s0.blk V parent i (parts path) name)) (TableFull s0) := by
  induction n generalizing ip i s path name with
  | zero => omega
  | succ n ih =>
    unfold namexLoop
    cases hskip : skipelem path with
    | none =>
      dsimp only
      rw [skipelem_none hskip, target]
      cases parent with
      | true =>
        refine (h.iput hrefs hkeep).bind fun _ s1 h1 => ?_
        rwa [spec_pure]
      | false =>
        rw [if_neg (by decide), if_neg (by decide), spec_pure]
        exact ⟨rfl, h⟩
    | some x =>
      obtain ⟨part, rest⟩ := x
      obtain ⟨hparts, hlen, hrest⟩ := skipelem_some hskip
      dsimp only
      rw [hparts, target]
      refine (h.ilock hrefs h0 (ht.typed i hi)).bind fun _ s1 h1 => ?_
      have hc1 := h0.onlyTable h1.only h1.table
      have hlk : (s1.itable ip).locked = true := (h1.locked ip).mpr rfl
      have hin : (s1.itable ip).inum = i := h1.inum (ip, i) (List.mem_cons_self ..)
      have hblk : s1.blk = s0.blk := by rw [h1.only]
      rw [spec_get_bind, h1.table.held hlk, hin]
      by_cases hdir : (V i).type = T_DIR
      · rw [if_neg (not_not.mpr hdir), if_pos hdir]
        by_cases hlast : parent = true ∧ rest = []
        · rw [if_pos hlast, if_pos ⟨hlast.1, hrest.mp hlast.2⟩]
          refine (h1.iunlock hrefs).bind fun _ s2 h2 => ?_
          rw [spec_pure]
          exact ⟨rfl, h2⟩
        · rw [if_neg hlast, if_neg (by rwa [← hrest]), spec_bind]
          have hnext : Fs.lookupIn s0.blk V i part =
              (lookupEntry (bytesOf s1.blk (V (s1.itable ip).inum)) part).map Prod.snd := by
            rw [Fs.lookupIn, if_pos hdir, hin, hblk]
          obtain ⟨href1, hval1⟩ := h1.table.locked ip hlk
          refine hc1.dirlookup href1 hval1 (by rwa [hin]) (by rw [hin]; exact ht.whole i hi hdir)
            (fun k j hk => ?_) fun hk => ?_
          · rw [hk, Option.map_some] at hnext
            obtain ⟨hj, hlink⟩ := ht.lookupIn hi hnext
            refine (iget_gets fun hno => h1.full le_rfl hno).imp fun next s2 hg => ?_
            dsimp only
            have h2 := h1.gets hrefs hg (ht.bound j hj)
            rw [hnext, Option.bind_some]
            refine ((h2.perm (List.Perm.swap ..)).iunlockput hrefs hkeep).bind fun _ s3 h3 => ?_
            exact ih (by omega) hj (.inl hlink) h3
          · rw [hk, Option.map_none] at hnext
            dsimp only
            rw [hnext, Option.bind_none]
            refine (h1.iunlockput hrefs hkeep).bind fun _ s2 h2 => ?_
            rwa [spec_pure]
      · rw [if_pos hdir, if_neg hdir]
        refine (h1.iunlockput hrefs hkeep).bind fun _ s2 h2 => ?_
        rwa [spec_pure]

/-- What a process may assume when it resolves a path. -/
structure CanWalk (s : State) (V : ℕ → Dinode) (T : Set ℕ) (cwd : Ip) : Prop where
  rep : Consistent none s V
  tree : FileTree s V T
  refs : ∀ k, 0 ≤ (s.itable k).ref
  unlocked : ∀ k, (s.itable k).locked = false
  cwd : 0 < (s.itable cwd).ref ∧ (s.itable cwd).inum ∈ T

theorem idup_gets (hpos : 0 < (s.itable ip).ref) :
    Spec (idup ip) s (fun r s' => r = ip ∧ Gets (s.itable ip).inum ip s s') E := by
  unfold idup
  rw [spec_get_bind, spec_bind, setInode, spec_modify, spec_pure]
  refine ⟨rfl, rfl, by simp, fun k => ?_, fun k _ => ?_, fun k => ?_, fun h0 => by omega⟩
  all_goals
    by_cases e : k = ip
    · subst e
      simp
    · simp [e]

theorem namex_spec {p : Slot} {x : Proc} (h : CanWalk s V T x.cwd) (hp : s.procs p = some x)
    (path : List UInt8) (parent : Bool) :
    Spec (namex p path parent) s (Arrives V s (target s.blk V parent
      (startInum (s.itable x.cwd).inum path) (parts path) [])) (TableFull s) := by
  have h0 : Walk V s [] none s := ⟨rfl, h.rep.table, fun _ => by simp, by simp, fun _ _ => rfl,
    fun k => by simp [h.unlocked k]⟩
  unfold namex startDir startInum
  split_ifs with hroot
  · refine (iget_gets fun hno => h0.full (Nat.zero_le _) hno).bind fun ip s1 hg => ?_
    have h1 := h0.gets h.refs hg (h.tree.bound _ h.tree.root.1)
    exact namexLoop_spec h.rep h.refs h.tree parent (Nat.lt_succ_self _) h.tree.root.1
      (.inl h.tree.root.2) h1
  · unfold getProc
    rw [spec_bind, spec_bind, spec_bind, spec_get, hp]
    dsimp only
    rw [spec_pure]
    refine (idup_gets h.cwd.1).imp ?_
    rintro ip s1 ⟨rfl, hg⟩
    have h1 := h0.gets h.refs hg (h.tree.bound _ h.cwd.2)
    exact namexLoop_spec h.rep h.refs h.tree parent (Nat.lt_succ_self _) h.cwd.2 (.inr h.cwd.1) h1

/-- `namei` leads where the parts of the path lead, and `nameiparent` where all but the last lead, or
there are not enough free entries in the inode table. -/
theorem namei_resolves {p : Slot} {x : Proc} (h : CanWalk s V T x.cwd) (hp : s.procs p = some x)
    (path : List UInt8) :
    Spec (namei p path) s (fun r s' =>
      match resolvePath s.blk V (s.itable x.cwd).inum path with
      | some i => ∃ ip, r = some ip ∧ Walk V s [(ip, i)] none s'
      | none => r = none ∧ Walk V s [] none s') (TableFull s) ∧
    Spec (nameiparent p path) s (fun r s' =>
      match resolveParent s.blk V (s.itable x.cwd).inum path with
      | some (i, last) => ∃ ip, r = some (ip, last) ∧ Walk V s [(ip, i)] none s'
      | none => r = none ∧ Walk V s [] none s') (TableFull s) ∧
    ∀ q : List UInt8, path ≠ [] → q.head? ≠ some slash → ∀ cwd,
      resolvePath s.blk V cwd (path ++ slash :: q) =
        (resolvePath s.blk V cwd path).bind fun i => resolvePath s.blk V i q := by
  refine ⟨?_, ?_, fun q hne hq cwd => resolvePath_append _ _ hne hq cwd⟩
  · refine (namex_spec h hp path false).bind fun r s' hr => ?_
    rw [spec_pure, resolvePath, ← target_path _ _ _ _ []]
    match target s.blk V false (startInum (s.itable x.cwd).inum path) (parts path) [], r, hr with
    | some y, some r, hr => exact ⟨r.1, rfl, hr.2⟩
    | none, none, hr => exact ⟨rfl, hr⟩
  · refine (namex_spec h hp path true).imp fun r s' hr => ?_
    rw [target_parent] at hr
    change Arrives V s (resolveParent s.blk V (s.itable x.cwd).inum path) r s' at hr
    match resolveParent s.blk V (s.itable x.cwd).inum path, r, hr with
    | some (i, last), some (ip, name), ⟨hname, hr⟩ =>
      cases hname
      exact ⟨ip, rfl, hr⟩
    | none, none, hr => exact ⟨rfl, hr⟩

section Example

open Mkfs

/-- The root directory has the directory `d` and the file `e`, and `d` has this file as `f`. -/
def treeInodes : ℕ → Dinode :=
  update (update (update (fun _ => {}) 3 { type := T_FILE, nlink := 2 }) 2
    { type := T_DIR, nlink := 1, size := 16, addrs := update (fun _ => 0) 0 (nmeta + 1) }) ROOTINO
    { type := T_DIR, nlink := 1, size := 32, addrs := update (fun _ => 0) 0 nmeta }

def treeData : ℕ → Block :=
  update (update (fun _ _ => 0) (nmeta + 1) (Bytes.blit (fun _ => 0) 0 (dirent 3 [102]))) nmeta
    (Bytes.blit (fun _ => 0) 0 (dirent 2 [100] ++ dirent 3 [101]))

/-- Every process is in the directory `d`. -/
def treeProc : Proc where
  cwd := ⟨0, NINODE_pos⟩

def treeState : State :=
  { stateOf treeInodes (diskOf treeInodes treeData 2 [ROOTINO, 2, 3]) 2 false with
    procs := fun _ => some treeProc }

theorem tree_smallFiles : SmallFiles treeInodes treeData 2 [ROOTINO, 2, 3] := by
  refine ⟨by decide, by decide, fun i hi => ?_, by decide, fun i hi t ht => ?_, by decide,
    by decide, by decide, fun b hb => ?_⟩
  · simp only [List.mem_cons, not_or] at hi
    exact (update_of_ne hi.1 ..).trans ((update_of_ne hi.2.1 ..).trans (update_of_ne hi.2.2.1 ..))
  · simp only [List.mem_cons, List.not_mem_nil, or_false] at hi
    rcases hi with rfl | rfl | rfl <;> simp [treeInodes, ROOTINO, ht]
  · exact (update_of_ne (by omega) ..).trans (update_of_ne (by omega) ..)

theorem treeState_canWalk :
    CanWalk treeState treeInodes {i | i ∈ [ROOTINO, 2, 3]} treeProc.cwd where
  rep := (tree_smallFiles.consistent (by decide)).congr rfl rfl fun _ _ => rfl
  tree := by
    have hclosed : ∀ i ∈ [ROOTINO, 2, 3], (treeInodes i).type = T_DIR → ∀ k < (treeInodes i).size / 16,
        ∀ x ∈ parse (dirEntry (bytesOf treeState.blk (treeInodes i)) k),
          x.2 ∈ [ROOTINO, 2, 3] ∧ (treeInodes x.2).nlink ≠ 0 := by decide +kernel
    refine ⟨⟨List.mem_cons_self, by decide⟩, ?_, ?_, ?_, fun i hi hd k hk name j hj =>
      hclosed i hi hd k hk (name, j) hj⟩
    · show ∀ i ∈ [ROOTINO, 2, 3], i < sb.ninodes
      decide
    · show ∀ i ∈ [ROOTINO, 2, 3], _
      decide
    · show ∀ i ∈ [ROOTINO, 2, 3], _
      decide
  refs k := by
    unfold treeState stateOf
    dsimp only
    split_ifs <;> decide
  unlocked k := by
    unfold treeState stateOf
    dsimp only
    split_ifs <;> rfl
  cwd := ⟨by decide, List.mem_cons_of_mem _ List.mem_cons_self⟩

/-- `/d/f` is the file, and `/e/f` is nothing. -/
theorem namei_resolves_tree :
    (∃ ip s', namei ⟨0, by decide⟩ [slash, 100, slash, 102] treeState = .ok (some ip, s') ∧
      Walk treeInodes treeState [(ip, 3)] none s') ∧
    ∃ s', namei ⟨0, by decide⟩ [slash, 101, slash, 102] treeState = .ok (none, s') ∧
      Walk treeInodes treeState [] none s' := by
  have hfree : TwoFree treeState := ⟨⟨1, by decide⟩, ⟨2, by decide⟩, by decide, rfl, rfl⟩
  have hnamei := fun path => (namei_resolves (p := ⟨0, by decide⟩) treeState_canWalk rfl path).1.mono
    (fun _ _ h => h) fun _ h => h.2 hfree
  constructor
  · obtain ⟨r, s', e, hr⟩ := (hnamei [slash, 100, slash, 102]).exists_ok
    rw [show resolvePath treeState.blk treeInodes (treeState.itable treeProc.cwd).inum
      [slash, 100, slash, 102] = some 3 by decide +kernel] at hr
    obtain ⟨ip, rfl, hw⟩ := hr
    exact ⟨ip, s', e, hw⟩
  · obtain ⟨r, s', e, hr⟩ := (hnamei [slash, 101, slash, 102]).exists_ok
    rw [show resolvePath treeState.blk treeInodes (treeState.itable treeProc.cwd).inum
      [slash, 101, slash, 102] = none by decide +kernel] at hr
    obtain ⟨rfl, hw⟩ := hr
    exact ⟨s', e, hw⟩

end Example

end TatakOS.Fs
