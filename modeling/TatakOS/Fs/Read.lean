import TatakOS.Fs.Names

/-!
# Reading files and directories

Where the blocks of a file are mapped, `readi` gives its bytes and changes nothing, and `dirlookup`
finds the first entry with the name. The functions on the inode table change one entry of it.
-/

namespace TatakOS.Fs

open Function

variable {s : State} {ip dp : Ip} {E : Panic × State → Prop}

/-- `n` bytes of a file, from offset `off` on. -/
def fileSlice (d : ℕ → Block) (x : Dinode) (off n : ℕ) : List UInt8 :=
  (List.range n).map fun i => byteAt d x (off + i)

section Slice

variable {d : ℕ → Block} {x : Dinode} {off m n : ℕ}

theorem fileSlice_length : (fileSlice d x off n).length = n := by
  unfold fileSlice
  rw [List.length_map, List.length_range]

theorem fileSlice_add : fileSlice d x off (m + n) = fileSlice d x off m ++ fileSlice d x (off + m) n := by
  unfold fileSlice
  rw [List.range_add, List.map_append, List.map_map]
  congr 1
  refine List.map_congr_left fun i _ => ?_
  rw [comp_apply, Nat.add_assoc]

theorem slice_eq_fileSlice (h : off % BSIZE + m ≤ BSIZE) :
    (d (fileBlock d x (off / BSIZE))).slice (off % BSIZE) m = fileSlice d x off m := by
  unfold Bytes.slice fileSlice byteAt
  refine List.map_congr_left fun i hi => ?_
  have hi' := List.mem_range.mp hi
  have hdiv : (off + i) / BSIZE = off / BSIZE := by
    unfold BSIZE at *
    omega
  have hmod : (off + i) % BSIZE = off % BSIZE + i := by
    unfold BSIZE at *
    omega
  rw [hdiv, hmod]

end Slice

/-! ## `readi` -/

theorem bmap_mapped {bn : ℕ} (h : fileBlock s.blk (s.itable ip).din bn ≠ 0) :
    Spec (bmap ip bn) s (fun b s' => b = fileBlock s.blk (s.itable ip).din bn ∧ s' = s) E := by
  unfold bmap
  rw [spec_get_bind]
  by_cases hd : bn < NDIRECT
  · rw [fileBlock_direct hd] at h ⊢
    rw [if_pos hd, if_neg h, spec_pure]
    exact ⟨rfl, rfl⟩
  · by_cases hi : bn - NDIRECT < NINDIRECT
    · have hfb := fileBlock_indirect (d := s.blk) (x := (s.itable ip).din) (not_lt.mp hd) hi
      have h0 : (s.itable ip).din.addrs NDIRECT ≠ 0 := by
        intro e
        rw [hfb, if_pos e] at h
        exact h rfl
      rw [hfb, if_neg h0] at h ⊢
      rw [if_neg hd, if_pos hi]
      unfold bmapIndirect bread
      simp only [spec_bind, spec_get, if_neg h0, spec_pure, if_neg h]
      exact ⟨trivial, trivial⟩
    · refine absurd ?_ h
      unfold fileBlock fileSlot
      rw [if_neg hd, slot_beyond]
      unfold MAXFILE
      omega

/-- Copies to the first `n` bytes of the destination succeed. -/
def Mem.Takes (dst : Mem) (n : ℕ) : Prop := ∀ tot m, tot + m ≤ n → eitherCopyout dst tot m = true

theorem Mem.takes_kernel (p : List UInt8) (n : ℕ) : (Mem.kernel p).Takes n := fun _ _ _ => rfl

theorem readiLoop_mapped {dst : Mem} {k tot off n : ℕ} (hdst : dst.Takes n) (hk : n ≤ tot + k)
    (hmap : ∀ o, off ≤ o → o < off + (n - tot) → fileBlock s.blk (s.itable ip).din (o / BSIZE) ≠ 0) :
    Spec (readiLoop ip dst k tot off n) s (fun r s' => s' = s ∧
      r = some (fileSlice s.blk (s.itable ip).din off (n - tot))) E := by
  induction k generalizing tot off with
  | zero =>
    refine spec_pure.mpr ⟨rfl, ?_⟩
    rw [show n - tot = 0 by omega]
    rfl
  | succ k ih =>
    unfold readiLoop
    by_cases ht : tot < n
    · rw [if_pos ht]
      refine (bmap_mapped (hmap off le_rfl (by omega))).bind ?_
      rintro b s' ⟨rfl, rfl⟩
      unfold bread
      simp only [spec_bind, spec_get, spec_pure]
      set m := min (n - tot) (BSIZE - off % BSIZE) with hm
      have hmod : off % BSIZE < BSIZE := Nat.mod_lt _ (by decide)
      rw [if_pos (hdst tot m (by omega))]
      refine (ih (by omega) fun o h1 h2 => hmap o (by omega) (by omega)).bind ?_
      rintro r s' ⟨rfl, rfl⟩
      rw [spec_pure]
      refine ⟨rfl, ?_⟩
      rw [Option.map_some, slice_eq_fileSlice (by omega), ← fileSlice_add]
      congr 2
      omega
    · rw [if_neg ht, spec_pure]
      refine ⟨rfl, ?_⟩
      rw [show n - tot = 0 by omega]
      rfl

theorem readi_mapped {dst : Mem} {off n : ℕ} (hdst : dst.Takes n) (hoff : off ≤ (s.itable ip).din.size)
    (hn : off + n < 2 ^ 32)
    (hmap : ∀ o, off ≤ o → o < off + n → o < (s.itable ip).din.size →
      fileBlock s.blk (s.itable ip).din (o / BSIZE) ≠ 0) :
    Spec (readi ip dst off n) s (fun r s' => s' = s ∧
      r = some (fileSlice s.blk (s.itable ip).din off (min n ((s.itable ip).din.size - off)))) E := by
  unfold readi
  rw [spec_get_bind]
  rw [if_neg (by rw [Nat.mod_eq_of_lt hn]; omega)]
  have hmin : (if (s.itable ip).din.size < off + n then (s.itable ip).din.size - off else n) =
      min n ((s.itable ip).din.size - off) := by
    split_ifs <;> omega
  rw [hmin]
  have hdst' : dst.Takes (min n ((s.itable ip).din.size - off)) := fun tot m h =>
    hdst tot m (by omega)
  exact readiLoop_mapped hdst' (by omega) fun o h1 h2 => hmap o h1 (by omega) (by omega)

/-! ## Directories -/

/-- Entry `k` of a directory. -/
def entry (d : ℕ → Block) (x : Dinode) (k : ℕ) : List UInt8 := fileSlice d x (16 * k) 16

/-- Entry `k` is in use and has the name. -/
def Matches (d : ℕ → Block) (x : Dinode) (name : List UInt8) (k : ℕ) : Prop :=
  deInum (entry d x k) ≠ 0 ∧ namecmp name (deName (entry d x k)) = true

/-- The block of entry `k` is mapped. -/
def EntryMapped (d : ℕ → Block) (x : Dinode) (k : ℕ) : Prop := fileBlock d x (16 * k / BSIZE) ≠ 0

theorem readEntry_mapped {k : ℕ} {e : Panic} (hk : 16 * k + 16 ≤ (s.itable dp).din.size)
    (hsz : (s.itable dp).din.size < 2 ^ 32) (hmap : EntryMapped s.blk (s.itable dp).din k) :
    Spec (readEntry dp (16 * k) e) s
      (fun de s' => de = entry s.blk (s.itable dp).din k ∧ s' = s) E := by
  unfold readEntry
  have hall : ∀ o, 16 * k ≤ o → o < 16 * k + 16 → o < (s.itable dp).din.size →
      fileBlock s.blk (s.itable dp).din (o / BSIZE) ≠ 0 := by
    intro o h1 h2 _
    have : o / BSIZE = 16 * k / BSIZE := by
      unfold BSIZE
      omega
    rw [this]
    exact hmap
  refine (readi_mapped (Mem.takes_kernel _ _) (by omega) (by omega) hall).bind ?_
  rintro r s' ⟨rfl, rfl⟩
  rw [show min 16 ((s'.itable dp).din.size - 16 * k) = 16 by omega]
  dsimp only
  rw [if_pos fileSlice_length, spec_pure]
  exact ⟨rfl, rfl⟩

section Lookup

variable {name : List UInt8} {Q : Option (Ip × ℕ) → State → Prop}
  (hsz : (s.itable dp).din.size < 2 ^ 32) (h16 : 16 ∣ (s.itable dp).din.size)
  (hmap : ∀ j, 16 * j < (s.itable dp).din.size →
    (∀ i < j, ¬ Matches s.blk (s.itable dp).din name i) → EntryMapped s.blk (s.itable dp).din j)
  (hfound : ∀ j, 16 * j < (s.itable dp).din.size → Matches s.blk (s.itable dp).din name j →
    (∀ i < j, ¬ Matches s.blk (s.itable dp).din name i) →
      Spec (iget (deInum (entry s.blk (s.itable dp).din j))) s
        (fun ip s' => Q (some (ip, 16 * j)) s') E)
  (hnone : (∀ j, 16 * j < (s.itable dp).din.size → ¬ Matches s.blk (s.itable dp).din name j) →
    Q none s)

include hsz h16 hmap hfound hnone

/-- `dirlookup` stops at the first entry with the name; the entries up to there must be mapped. -/
theorem dirlookupLoop_spec {n k : ℕ} (hn : (s.itable dp).din.size < 16 * (k + n))
    (hbefore : ∀ j < k, ¬ Matches s.blk (s.itable dp).din name j) :
    Spec (dirlookupLoop dp name n (16 * k)) s Q E := by
  induction n generalizing k with
  | zero =>
    refine spec_pure.mpr (hnone fun j hj => hbefore j (by omega))
  | succ n ih =>
    unfold dirlookupLoop
    rw [spec_get_bind]
    by_cases hk : 16 * k < (s.itable dp).din.size
    · rw [if_pos hk]
      refine (readEntry_mapped (by omega) hsz (hmap k hk hbefore)).bind ?_
      rintro de s' ⟨rfl, rfl⟩
      split
      · rename_i hm
        exact (hfound k hk hm hbefore).bind fun ip s1 h1 => spec_pure.mpr h1
      · rename_i hm
        refine ih (k := k + 1) (by omega) fun j hj => ?_
        by_cases e : j = k
        · rw [e]
          exact hm
        · exact hbefore j (by omega)
    · rw [if_neg hk]
      refine spec_pure.mpr (hnone fun j hj => hbefore j (by omega))

theorem dirlookup_spec (htype : (s.itable dp).din.type = T_DIR) :
    Spec (dirlookup dp name) s Q E := by
  unfold dirlookup
  rw [spec_get_bind]
  rw [if_neg (not_not.mpr htype)]
  exact dirlookupLoop_spec hsz h16 hmap hfound hnone (k := 0) (by omega) (by simp)

end Lookup

/-! ## The inode table -/

/-- An entry that is in use is taken before a free one. -/
theorem spec_iget {inum : ℕ} {Q : Ip → State → Prop}
    (hlive : ∀ ip, 0 < (s.itable ip).ref → (s.itable ip).inum = inum → Q ip { s with
        itable := update s.itable ip { s.itable ip with ref := (s.itable ip).ref + 1 } })
    (hfree : (∀ k, 0 < (s.itable k).ref → (s.itable k).inum ≠ inum) → ∀ ip, (s.itable ip).ref = 0 →
      Q ip { s with
        itable := update s.itable ip
          { s.itable ip with inum := inum, ref := 1, valid := false } })
    (hfull : (∀ k, (s.itable k).ref ≠ 0 ∧ (0 < (s.itable k).ref → (s.itable k).inum ≠ inum)) →
      E (.tableFull, s)) :
    Spec (iget inum) s Q E := by
  unfold iget
  rw [spec_get_bind]
  split
  · rename_i ip hip
    have hip' := List.find?_some hip
    rw [decide_eq_true_iff] at hip'
    rw [spec_bind, setInode, spec_modify, spec_pure]
    exact hlive ip hip'.1 hip'.2
  · rename_i hno
    have hno' : ∀ k, 0 < (s.itable k).ref → (s.itable k).inum ≠ inum := by
      intro k h1 h2
      have := List.find?_eq_none.mp hno k (List.mem_finRange k)
      exact this (decide_eq_true ⟨h1, h2⟩)
    split
    · rename_i hno2
      rw [spec_panic]
      apply hfull
      intro k
      have href : (s.itable k).ref ≠ 0 := fun hk =>
        List.find?_eq_none.mp hno2 k (List.mem_finRange k) (decide_eq_true hk)
      exact ⟨href, hno' k⟩
    · rename_i ip hip
      have hip' := List.find?_some hip
      rw [decide_eq_true_iff] at hip'
      rw [spec_bind, setInode, spec_modify, spec_pure]
      exact hfree hno' ip hip'

variable {Q : Unit → State → Prop}

theorem spec_ilock_load (href : 1 ≤ (s.itable ip).ref)
    (hlock : (s.itable ip).locked = false) (hvalid : (s.itable ip).valid = false)
    (htype : (dinode s.sb s.blk (s.itable ip).inum).type ≠ 0)
    (h : Q () { s with
      itable := update s.itable ip
        { s.itable ip with
          locked := true, valid := true, din := dinode s.sb s.blk (s.itable ip).inum } }) :
    Spec (ilock ip) s Q E := by
  unfold ilock
  rw [spec_get_bind]
  rw [if_neg (by omega), hlock, if_neg (by decide), hvalid, if_neg (by decide), spec_bind,
    setInode, spec_modify, if_neg htype, spec_pure]
  exact h

theorem spec_iunlock (href : 1 ≤ (s.itable ip).ref) (hlock : (s.itable ip).locked = true)
    (h : Q () { s with
      itable := update s.itable ip { s.itable ip with locked := false } }) :
    Spec (iunlock ip) s Q E := by
  unfold iunlock
  rw [spec_get_bind]
  rw [if_neg (by rw [hlock]; simp; omega), setInode, spec_modify]
  exact h

theorem spec_iput_keep
    (hkeep : ¬ ((s.itable ip).ref = 1 ∧ (s.itable ip).valid = true ∧ (s.itable ip).din.nlink = 0))
    (h : Q () { s with
      itable := update s.itable ip { s.itable ip with ref := (s.itable ip).ref - 1 } }) :
    Spec (iput ip) s Q E := by
  unfold iput iunref
  rw [spec_get_bind]
  rw [if_neg hkeep, spec_bind, spec_get, setInode, spec_modify]
  exact h

theorem spec_iunlockput_shared (href : 1 < (s.itable ip).ref) (hlock : (s.itable ip).locked = true)
    (h : Q () { s with
      itable := update s.itable ip
        { s.itable ip with locked := false, ref := (s.itable ip).ref - 1 } }) :
    Spec (iunlockput ip) s Q E := by
  unfold iunlockput
  rw [spec_bind]
  refine spec_iunlock (by omega) hlock (spec_iput_keep ?_ ?_)
  · simp only [update_self]
    omega
  · simp only [update_self, update_idem]
    exact h

end TatakOS.Fs
