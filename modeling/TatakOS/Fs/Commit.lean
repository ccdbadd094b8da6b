import TatakOS.Fs.Consistent

/-!
# The end of a transaction

`commit` copies the logged blocks into the log and from there to their places. It writes to the log
area and to the disk: the blocks that the file system sees stay as they are.
-/

namespace TatakOS.Fs

open Function

variable {s s' s1 : State} {V : ℕ → Dinode} {E : Panic × State → Prop} {b tail : ℕ} {L : List ℕ}

/-- The block is not part of the log. -/
def Superblock.home (sb : Superblock) (b : ℕ) : Prop :=
  b < sb.logstart ∨ sb.logstart + sb.nlog ≤ b

/-- The blocks in the header come after the log, and the log has room for them. -/
structure LogOk (s : State) : Prop where
  size : s.log.size ≤ s.sb.nlog
  length : s.log.lh.length ≤ s.log.size - 1
  above : ∀ b ∈ s.log.lh, s.sb.inodestart ≤ b

theorem LogOk.logs (h : LogOk s) (hch : LogOnly s s') : LogOk s' where
  size := by
    rw [hch.sb, hch.log]
    exact h.size
  length := by
    have h1 := hch.length
    have h2 := h.length
    rw [show s'.log.size = s.log.size by rw [hch.log]]
    omega
  above b hb := by
    rw [hch.sb]
    obtain hb | hb := hch.above b hb
    · exact h.above b hb
    · exact hb

/-- Only blocks change. -/
def OnlyBlocks (s s' : State) : Prop :=
  s' = { s with blk := s'.blk, disk := s'.disk, trace := s'.trace }

theorem OnlyBlocks.trans (h : OnlyBlocks s s1) (h' : OnlyBlocks s1 s') : OnlyBlocks s s' := by
  unfold OnlyBlocks at *
  rw [h', h]

/-- What `write_log` does: block `j` of the list is in its place in the log. -/
structure Logs (tail : ℕ) (L : List ℕ) (s s' : State) : Prop where
  state : OnlyBlocks s s'
  copy : ∀ j b, L[j]? = some b → s'.blk (s.sb.logstart + (tail + j) + 1) = s.blk b
  others : ∀ b, b < s.sb.logstart + tail + 1 ∨ s.sb.logstart + tail + 1 + L.length ≤ b →
    s'.blk b = s.blk b ∧ s'.disk b = s.disk b

theorem writeLog_spec (hL : ∀ b ∈ L, s.sb.logstart + tail + 1 + L.length ≤ b) :
    Spec (writeLog tail L) s (fun _ s' => Logs tail L s s') E := by
  induction L generalizing s tail with
  | nil => exact spec_pure.mpr ⟨rfl, fun j b h => by simp at h, fun b _ => ⟨rfl, rfl⟩⟩
  | cons c L ih =>
    unfold writeLog bwrite
    rw [spec_get_bind, spec_bind, spec_modify]
    set s1 : State := { s with
      blk := update s.blk (s.sb.logstart + tail + 1) (s.blk c)
      disk := update s.disk (s.sb.logstart + tail + 1) (s.blk c)
      trace := update s.disk (s.sb.logstart + tail + 1) (s.blk c) :: s.trace } with hs1
    have hlen : (c :: L).length = L.length + 1 := rfl
    have hother : ∀ b, b ≠ s.sb.logstart + tail + 1 → s1.blk b = s.blk b ∧ s1.disk b = s.disk b :=
      fun b hb => ⟨update_of_ne hb _ _, update_of_ne hb _ _⟩
    have hsb : s1.sb = s.sb := rfl
    have hstate : OnlyBlocks s s1 := rfl
    refine (ih ?_).imp fun _ s' h => ?_
    · intro b hb
      have := hL b (List.mem_cons_of_mem c hb)
      rw [hsb]
      omega
    · refine ⟨hstate.trans h.state, fun j b hj => ?_, fun b hb => ?_⟩
      · cases j with
        | zero =>
          cases hj
          rw [Nat.add_zero, (h.others _ (.inl (by rw [hsb]; omega))).1]
          exact update_self _ _ _
        | succ j =>
          rw [List.getElem?_cons_succ] at hj
          have hb := hL b (List.mem_cons_of_mem c (List.mem_of_getElem? hj))
          rw [show tail + (j + 1) = tail + 1 + j by omega, ← hsb, h.copy j b hj]
          exact (hother b (by omega)).1
      · have h1 := h.others b (by rw [hsb]; omega)
        have h2 := hother b (by omega)
        exact ⟨h1.1.trans h2.1, h1.2.trans h2.2⟩

/-- What `install_trans` does: the blocks are on the disk as they are in the log, which is as the
file system sees them. -/
structure Installs (L : List ℕ) (s s' : State) : Prop where
  state : OnlyBlocks s s'
  blk : s'.blk = s.blk
  disk : ∀ b, s'.disk b = if b ∈ L then s.blk b else s.disk b

theorem installTrans_spec
    (hcopy : ∀ j b, L[j]? = some b → s.blk (s.sb.logstart + (tail + j) + 1) = s.blk b) :
    Spec (installTrans tail L) s (fun _ s' => Installs L s s') E := by
  induction L generalizing s tail with
  | nil => exact spec_pure.mpr ⟨rfl, rfl, fun b => (if_neg List.not_mem_nil).symm⟩
  | cons c L ih =>
    unfold installTrans bwrite
    rw [spec_get_bind, spec_bind, spec_modify]
    have hc : s.blk (s.sb.logstart + tail + 1) = s.blk c := hcopy 0 c rfl
    rw [hc, update_eq_self]
    set s1 : State := { s with
      disk := update s.disk c (s.blk c)
      trace := update s.disk c (s.blk c) :: s.trace } with hs1
    have hcopy1 : ∀ j b, L[j]? = some b → s1.blk (s1.sb.logstart + (tail + 1 + j) + 1) = s1.blk b :=
      fun j b hj => by
        rw [show tail + 1 + j = tail + (j + 1) by omega]
        exact hcopy (j + 1) b hj
    have hstate : OnlyBlocks s s1 := rfl
    refine (ih hcopy1).imp fun _ s' h => ⟨hstate.trans h.state, h.blk, fun b => ?_⟩
    rw [h.disk b]
    by_cases hb : b ∈ L
    · rw [if_pos hb, if_pos (List.mem_cons_of_mem c hb)]
    · rw [if_neg hb]
      by_cases hbc : b = c
      · subst hbc
        rw [if_pos List.mem_cons_self]
        exact update_self _ _ _
      · rw [if_neg (by simp [hb, hbc])]
        exact update_of_ne hbc _ _

theorem writeHead_spec : Spec writeHead s (fun _ s' => OnlyBlocks s s' ∧
    ∀ b, b ≠ s.sb.logstart → s'.blk b = s.blk b ∧ s'.disk b = s.disk b) E := by
  unfold writeHead bwrite
  rw [spec_get_bind, spec_modify]
  exact ⟨rfl, fun b hb => ⟨update_of_ne hb _ _, update_of_ne hb _ _⟩⟩

/-- The header is empty and the logged blocks are on the disk. -/
structure Flushes (s s' : State) : Prop where
  state : s' = { s with
    blk := s'.blk, disk := s'.disk, trace := s'.trace, log := { s.log with lh := [] } }
  blk : ∀ b, s.sb.home b → s'.blk b = s.blk b
  disk : ∀ b, s.sb.home b → s'.disk b = if b ∈ s.log.lh then s.blk b else s.disk b

/-- `commit` leaves an empty header and the same file system. -/
theorem commit_spec (hL : s.sb.Layout) (h : LogOk s) :
    Spec commit s (fun _ s' => Flushes s s') E := by
  have hin := hL.inodes
  have hsz := h.size
  have hlen := h.length
  unfold commit
  rw [spec_get_bind]
  by_cases he : s.log.lh = []
  · rw [if_pos he, spec_pure]
    refine ⟨?_, fun _ _ => rfl, fun b _ => ?_⟩
    · rw [← he]
    · rw [he, if_neg List.not_mem_nil]
  rw [if_neg he, spec_bind]
  have hpos : 0 < s.log.lh.length := List.length_pos_of_ne_nil he
  have habove : ∀ b ∈ s.log.lh, s.sb.logstart + 0 + 1 + s.log.lh.length ≤ b := fun b hb => by
    have := h.above b hb
    omega
  refine (writeLog_spec habove).imp fun _ s1 h1 => ?_
  have hsb1 : s1.sb = s.sb := by rw [h1.state]
  rw [spec_bind]
  refine writeHead_spec.imp ?_
  rintro _ s2 ⟨hs2, hother⟩
  rw [hsb1] at hother
  have hsb2 : s2.sb = s.sb := by
    rw [hs2]
    exact hsb1
  rw [spec_bind]
  have hhome : ∀ b, s.sb.home b → s2.blk b = s.blk b ∧ s2.disk b = s.disk b := fun b hb => by
    unfold Superblock.home at hb
    have e1 := hother b (by omega)
    have e2 := h1.others b (by omega)
    exact ⟨e1.1.trans e2.1, e1.2.trans e2.2⟩
  have hcopy : ∀ j b, s.log.lh[j]? = some b →
      s2.blk (s2.sb.logstart + (0 + j) + 1) = s2.blk b := fun j b hj => by
    have hb := h.above b (List.mem_of_getElem? hj)
    rw [hsb2, (hother _ (by omega)).1, h1.copy j b hj, (hhome b (.inr (by omega))).1]
  refine (installTrans_spec hcopy).imp fun _ s3 h3 => ?_
  have hs3 : OnlyBlocks s s3 := (h1.state.trans hs2).trans h3.state
  have hsb3 : s3.sb = s.sb := by rw [hs3]
  unfold clearHead
  rw [spec_bind, spec_modify]
  refine writeHead_spec.imp ?_
  rintro _ s4 ⟨hs4, hother4⟩
  have hne : ∀ b, s.sb.home b → b ≠ s3.sb.logstart := fun b hb => by
    unfold Superblock.home at hb
    rw [hsb3]
    omega
  refine ⟨?_, fun b hb => ?_, fun b hb => ?_⟩
  · unfold OnlyBlocks at hs4 hs3
    rw [hs4, hs3]
  · rw [(hother4 b (hne b hb)).1]
    show s3.blk b = _
    rw [h3.blk, (hhome b hb).1]
  · rw [(hother4 b (hne b hb)).2]
    show s3.disk b = _
    rw [h3.disk, (hhome b hb).1, (hhome b hb).2]

/-- What `end_op` does. The last one of a group commits. -/
structure Ends (s s' : State) : Prop where
  state : s' = { s with
    blk := s'.blk, disk := s'.disk, trace := s'.trace
    log := { s.log with outstanding := s.log.outstanding - 1, lh := s'.log.lh } }
  lh : s'.log.lh = if s.log.outstanding = 1 then [] else s.log.lh
  blk : ∀ b, s.sb.inodestart ≤ b → s'.blk b = s.blk b

theorem endOp_spec (hL : s.sb.Layout) (h : LogOk s) (hopen : 0 < s.log.outstanding)
    (hc : s.log.committing = false) : Spec endOp s (fun _ s' => Ends s s') E := by
  unfold endOp
  rw [spec_get_bind]
  unfold Logging.endOp
  simp only [hc]
  by_cases h1 : s.log.outstanding = 1
  · simp only [h1, Nat.sub_self, if_true, Bool.false_eq_true, if_false]
    rw [spec_bind, spec_modify, spec_bind]
    set s1 : State := { s with
      log := { s.log with outstanding := 0, committing := true } } with hs1
    have hlog1 : LogOk s1 := ⟨h.size, h.length, h.above⟩
    refine (commit_spec (s := s1) hL hlog1).imp fun _ s2 h2 => ?_
    rw [spec_modify]
    refine ⟨?_, ?_, fun b hb => ?_⟩
    · rw [h2.state, hs1, h1, ← hc]
    · rw [if_pos h1]
      show s2.log.lh = []
      rw [h2.state]
    · refine h2.blk b (.inr ?_)
      have := hL.inodes
      show s.sb.logstart + s.sb.nlog ≤ b
      omega
  · rw [if_neg (by decide), if_neg (by omega)]
    dsimp only
    rw [spec_bind, spec_modify, if_neg (by decide), spec_pure]
    refine ⟨?_, ?_, fun _ _ => rfl⟩
    · simp only [← hc]
    · rw [if_neg h1]

theorem Ends.consistent {D : Option ℕ} (h : Ends s s') (hs : Consistent D s V) :
    Consistent D s' V := by
  have hsb : s'.sb = s.sb := by rw [h.state]
  have htab : s'.itable = s.itable := by rw [h.state]
  exact hs.congr hsb htab h.blk

theorem Ends.logOk (h : Ends s s') (hs : LogOk s) : LogOk s' := by
  have hsb : s'.sb = s.sb := by rw [h.state]
  have hsize : s'.log.size = s.log.size := by rw [h.state]
  have hsub : ∀ b ∈ s'.log.lh, b ∈ s.log.lh := fun b hb => by
    rw [h.lh] at hb
    split_ifs at hb with h1
    · exact absurd hb List.not_mem_nil
    · exact hb
  refine ⟨?_, ?_, fun b hb => ?_⟩
  · rw [hsb, hsize]
    exact hs.size
  · rw [h.lh, hsize]
    split_ifs
    · exact Nat.zero_le _
    · exact hs.length
  · rw [hsb]
    exact hs.above b (hsub b hb)

end TatakOS.Fs
