import TatakOS.Fs.Arrays
import TatakOS.Fs.Names

/-!
# Looking up names

A directory is a file of entries of 16 bytes. `lookupEntry` is the first entry in use with a given
name, and `firstEmpty` the first entry that is not in use, or the end; `dirlookup` and `dirlink`
find these.
-/

namespace TatakOS.Fs

open Function

/-! ## Names -/

/-- `strncmp`. Behind its end a string reads as NUL. -/
def strncmp : ℕ → List UInt8 → List UInt8 → ℤ
  | 0, _, _ => 0
  | n + 1, p, q =>
    if p.headD 0 ≠ 0 ∧ p.headD 0 = q.headD 0 then strncmp n p.tail q.tail
    else (p.headD 0).toNat - (q.headD 0).toNat

/-- `strncpy`: the bytes that are stored. -/
def strncpy : ℕ → List UInt8 → List UInt8
  | 0, _ => []
  | n + 1, t => t.headD 0 :: if t.headD 0 = 0 then List.replicate n 0 else strncpy n t.tail

theorem takeWhile_take_succ (n : ℕ) (p : List UInt8) : (p.take (n + 1)).takeWhile (· ≠ 0) =
      if p.headD 0 = 0 then [] else p.headD 0 :: (p.tail.take n).takeWhile (· ≠ 0) := by
  cases p with
  | nil => rfl
  | cons c p =>
    rw [List.take_succ_cons, List.takeWhile_cons]
    by_cases hc : c = 0 <;> simp [hc]

/-- `strncmp` compares up to a NUL. -/
theorem strncmp_eq_zero_iff (n : ℕ) (p q : List UInt8) :
    strncmp n p q = 0 ↔ (p.take n).takeWhile (· ≠ 0) = (q.take n).takeWhile (· ≠ 0) := by
  induction n generalizing p q with
  | zero => simp [strncmp]
  | succ n ih =>
    have hsub : ((p.headD 0).toNat : ℤ) - (q.headD 0).toNat = 0 ↔ p.headD 0 = q.headD 0 := by
      rw [sub_eq_zero, Nat.cast_inj, UInt8.toNat_inj]
    rw [strncmp, takeWhile_take_succ, takeWhile_take_succ]
    generalize p.headD 0 = c at *
    generalize q.headD 0 = c' at *
    by_cases h : c ≠ 0 ∧ c = c'
    · rw [if_pos h, ih, if_neg h.1, if_neg (h.2 ▸ h.1), List.cons.injEq, and_iff_right h.2]
    · rw [if_neg h, hsub]
      by_cases hc : c = 0
      · rw [if_pos hc, hc]
        by_cases hc' : c' = 0
        · simp [hc']
        · simp [hc', Ne.symm hc']
      · have hne : c ≠ c' := fun e => h ⟨hc, e⟩
        rw [if_neg hc]
        by_cases hc' : c' = 0 <;> simp [hc', hne, hc]

theorem namecmp_eq_strncmp (p q : List UInt8) : namecmp p q = decide (strncmp DIRSIZ p q = 0) := by
  rw [namecmp, decide_eq_decide, strncmp_eq_zero_iff]
  rfl

theorem nameField_eq_strncpy {name : List UInt8} (h : (0 : UInt8) ∉ name) :
    nameField name = strncpy DIRSIZ name := by
  have key : ∀ (n : ℕ) (t : List UInt8), (0 : UInt8) ∉ t →
      t.take n ++ List.replicate (n - t.length) 0 = strncpy n t := by
    intro n
    induction n with
    | zero =>
      intro t _
      simp [strncpy]
    | succ n ih =>
      intro t ht
      cases t with
      | nil => simp [strncpy, List.replicate_succ]
      | cons c t =>
        obtain ⟨hc, ht⟩ := not_or.mp (mt List.mem_cons.mpr ht)
        rw [strncpy, List.headD_cons, if_neg (Ne.symm hc), List.tail_cons, ← ih t ht,
          List.take_succ_cons, List.length_cons, Nat.add_sub_add_right, List.cons_append]
  exact key DIRSIZ name h

/-! ## Entries -/

/-- Entry `k` of a directory with the bytes `l`. -/
def dirEntry (l : List UInt8) (k : ℕ) : List UInt8 := (l.drop (16 * k)).take 16

/-- The name and the inode number, if the entry is in use. -/
def parse (de : List UInt8) : Option (List UInt8 × ℕ) :=
  if deInum de = 0 then none else some (cut (deName de), deInum de)

/-- The first entry with the name: where it is, and its inode number. -/
def lookupEntry (l : List UInt8) (name : List UInt8) : Option (ℕ × ℕ) :=
  ((List.range (l.length / 16)).find? fun k =>
    deInum (dirEntry l k) ≠ 0 ∧ namecmp name (deName (dirEntry l k))).map fun k =>
      (k, deInum (dirEntry l k))

/-- The first entry that is not in use, or the end. -/
def firstEmpty (l : List UInt8) : ℕ :=
  ((List.range (l.length / 16)).find? fun k => deInum (dirEntry l k) = 0).getD (l.length / 16)

theorem lookupEntry_eq_some {l name : List UInt8} {k i : ℕ} (h : lookupEntry l name = some (k, i)) :
    k < l.length / 16 ∧ deInum (dirEntry l k) = i ∧ i ≠ 0 ∧
      namecmp name (deName (dirEntry l k)) = true := by
  obtain ⟨j, hj, he⟩ := Option.map_eq_some_iff.mp h
  cases he
  obtain ⟨hp, hmem, -⟩ := List.find?_range_eq_some.mp hj
  rw [decide_eq_true_iff] at hp
  exact ⟨List.mem_range.mp hmem, rfl, hp⟩

variable {s s' : State} {V V' : ℕ → Dinode} {dp ip : Ip} {E : Panic × State → Prop}
  {name : List UInt8} {k : ℕ}

section Read

variable (h : Consistent none s V) (href : 0 < (s.itable dp).ref)
  (hval : (s.itable dp).valid = true)
include h href hval

omit href hval in
theorem Consistent.entryMapped {i : ℕ} (hk : 16 * k < (V i).size) : EntryMapped s.blk (V i) k :=
  h.full i _ (by unfold BSIZE; omega)

omit href hval in
theorem Consistent.entry_eq {i : ℕ} (hk : 16 * k + 16 ≤ (V i).size) :
    entry s.blk (V i) k = dirEntry (bytesOf s.blk (V i)) k := by
  refine List.ext_getElem (by simp [entry, dirEntry, fileSlice_length]; omega) fun j h1 h2 => ?_
  have hj : j < 16 := by simpa [entry, fileSlice_length] using h1
  have hne : fileBlock s.blk (V i) ((16 * k + j) / BSIZE) ≠ 0 :=
    h.full i _ (by unfold BSIZE; omega)
  simp [entry, fileSlice, dirEntry, bytesOf, content, hne]

theorem Consistent.readEntry {e : Panic} (hk : 16 * k + 16 ≤ (V (s.itable dp).inum).size) :
    Spec (readEntry dp (16 * k) e) s (fun de s' => s' = s ∧
      de = dirEntry (bytesOf s.blk (V (s.itable dp).inum)) k) E := by
  have hmap : EntryMapped s.blk _ k := h.entryMapped (i := (s.itable dp).inum) (by omega)
  have hsize := (h.owned.fits (s.itable dp).inum).size
  rw [← h.entry_eq hk]
  rw [← h.table.mem dp href hval] at *
  exact (readEntry_mapped hk hsize hmap).imp fun _ _ => And.symm

variable {Q : Option (Ip × ℕ) → State → Prop}

/-- `dirlookup` returns the first entry with the name. -/
theorem Consistent.dirlookup
    (htype : (V (s.itable dp).inum).type = T_DIR) (h16 : 16 ∣ (V (s.itable dp).inum).size)
    (hfound : ∀ j i, lookupEntry (bytesOf s.blk (V (s.itable dp).inum)) name = some (j, i) →
      Spec (iget i) s (fun ip s' => Q (some (ip, 16 * j)) s') E)
    (hnone : lookupEntry (bytesOf s.blk (V (s.itable dp).inum)) name = none → Q none s) :
    Spec (dirlookup dp name) s Q E := by
  have hmap := fun j => h.entryMapped (k := j) (i := (s.itable dp).inum)
  have hentry := fun j => h.entry_eq (k := j) (i := (s.itable dp).inum)
  have hsize := (h.owned.fits (s.itable dp).inum).size
  rw [← h.table.mem dp href hval] at *
  refine dirlookup_spec hsize h16 (fun j hj _ => hmap j hj) (fun j hj hm hbefore => ?_)
    (fun hno => hnone ?_) htype
  · rw [hentry j (by omega)]
    apply hfound
    unfold lookupEntry
    rw [List.find?_range_eq_some.mpr, Option.map_some]
    rw [Matches, hentry j (by omega)] at hm
    refine ⟨by rwa [decide_eq_true_iff], List.mem_range.mpr (by rw [bytesOf_length]; omega),
      fun i hi => ?_⟩
    have := hbefore i hi
    rw [Matches, hentry i (by omega)] at this
    rwa [Bool.not_eq_true', decide_eq_false_iff_not]
  · unfold lookupEntry
    rw [Option.map_eq_none_iff, List.find?_eq_none]
    intro j hj
    rw [bytesOf_length, List.mem_range] at hj
    have := hno j (by omega)
    rw [Matches, hentry j (by omega)] at this
    rwa [decide_eq_true_iff]

theorem Consistent.emptyEntryLoop {n : ℕ} (h16 : 16 ∣ (V (s.itable dp).inum).size)
    (hn : (V (s.itable dp).inum).size < 16 * (k + n)) (hk : 16 * k ≤ (V (s.itable dp).inum).size)
    (hbefore : ∀ j < k, deInum (dirEntry (bytesOf s.blk (V (s.itable dp).inum)) j) ≠ 0) :
    Spec (emptyEntry dp n (16 * k)) s (fun off s' => s' = s ∧
      off = 16 * firstEmpty (bytesOf s.blk (V (s.itable dp).inum))) E := by
  have hmem := h.table.mem dp href hval
  induction n generalizing k with
  | zero => omega
  | succ n ih =>
    rw [emptyEntry, spec_bind, spec_get, hmem]
    by_cases hlt : 16 * k < (V (s.itable dp).inum).size
    · rw [if_pos hlt, spec_bind]
      refine (h.readEntry href hval (by omega)).imp ?_
      rintro de s' ⟨rfl, rfl⟩
      by_cases h0 : deInum (dirEntry (bytesOf s'.blk (V (s'.itable dp).inum)) k) = 0
      · rw [if_pos h0, spec_pure]
        refine ⟨rfl, ?_⟩
        unfold firstEmpty
        rw [List.find?_range_eq_some.mpr, Option.getD_some]
        refine ⟨by rwa [decide_eq_true_iff], List.mem_range.mpr ?_, fun j hj => ?_⟩
        · rw [bytesOf_length]
          omega
        · rw [Bool.not_eq_true', decide_eq_false_iff_not]
          exact hbefore j hj
      · rw [if_neg h0]
        refine ih (k := k + 1) (by omega) (by omega) fun j hj => ?_
        rcases Nat.lt_succ_iff_lt_or_eq.mp hj with hj | rfl
        · exact hbefore j hj
        · exact h0
    · rw [if_neg hlt, spec_pure]
      refine ⟨rfl, ?_⟩
      unfold firstEmpty
      rw [List.find?_eq_none.mpr, Option.getD_none, bytesOf_length]
      · omega
      · intro j hj
        rw [bytesOf_length, List.mem_range] at hj
        rw [decide_eq_true_iff]
        exact hbefore j (by omega)

end Read

/-! ## References -/

/-- Only the inode table is changed. -/
def OnlyTable (s s' : State) : Prop := s' = { s with itable := s'.itable }

theorem OnlyTable.trans {s'' : State} (h : OnlyTable s s') (h' : OnlyTable s' s'') :
    OnlyTable s s'' := by
  unfold OnlyTable at *
  rw [h', h]

theorem Consistent.onlyTable {D : Option ℕ} (h : Consistent D s V) (ho : OnlyTable s s')
    (ht : Table s' V) : Consistent D s' V := by
  unfold OnlyTable at ho
  rw [ho] at ht ⊢
  exact ⟨ht, h.owned, h.full, h.clean⟩

/-- `s'` has one reference more to the entry `ip`, which is for the inode `i`. -/
structure Gets (i : ℕ) (ip : Ip) (s s' : State) : Prop where
  only : OnlyTable s s'
  inum : (s'.itable ip).inum = i
  ref : ∀ k, (s'.itable k).ref = (s.itable k).ref + if k = ip then 1 else 0
  /-- An entry that was in use is the same but for the count. -/
  kept : ∀ k, 0 < (s.itable k).ref → s'.itable k = { s.itable k with ref := (s'.itable k).ref }
  locked : ∀ k, (s'.itable k).locked = (s.itable k).locked
  fresh : (s.itable ip).ref = 0 → (s'.itable ip).valid = false ∧
    ∀ k, 0 < (s.itable k).ref → (s.itable k).inum ≠ i

/-- An entry of the inode table can be had for the inode `i`. -/
def CanGet (s : State) (i : ℕ) : Prop :=
  ∃ k, (s.itable k).ref = 0 ∨ 0 < (s.itable k).ref ∧ (s.itable k).inum = i

/-- `iget` fails only if the inode table is full. -/
theorem iget_gets {i : ℕ} (hno : ¬ CanGet s i → E (.tableFull, s)) :
    Spec (iget i) s (fun ip s' => Gets i ip s s') E := by
  refine spec_iget (fun ip hip hin => ?_) (fun hold ip hip => ?_) fun hfull => ?_
  · refine ⟨rfl, ?_, fun k => ?_, fun k _ => ?_, fun k => ?_, fun h0 => by omega⟩
    · simpa using hin
    all_goals
      by_cases e : k = ip
      · subst e
        simp
      · simp [e]
  · refine ⟨rfl, by simp, fun k => ?_, fun k hk => ?_, fun k => ?_, fun _ => ⟨by simp, hold⟩⟩
    · by_cases e : k = ip
      · subst e
        simp [hip]
      · simp [e]
    · have e : k ≠ ip := by
        rintro rfl
        omega
      simp [e]
    · by_cases e : k = ip
      · subst e
        simp
      · simp [e]
  · apply hno
    rintro ⟨k, hk | ⟨hk, hin⟩⟩
    · exact absurd hk (hfull k).1
    · exact absurd hin ((hfull k).2 hk)

theorem Gets.table {i : ℕ} (hg : Gets i ip s s') (ht : Table s V) (hi : i < s.sb.ninodes) :
    Table s' V := by
  have hsb : s'.sb = s.sb := by rw [hg.only]
  -- an entry in use is an old one or `ip`
  have hcases : ∀ k, 0 < (s'.itable k).ref → 0 < (s.itable k).ref ∧
      s'.itable k = { s.itable k with ref := (s'.itable k).ref } ∨
        k = ip ∧ (s.itable ip).ref = 0 := by
    intro k hk
    by_cases h0 : 0 < (s.itable k).ref
    · exact .inl ⟨h0, hg.kept k h0⟩
    · have := hg.ref k
      split_ifs at this with e
      · subst e
        exact .inr ⟨rfl, by omega⟩
      · omega
  constructor
  · intro k hk
    rw [hsb]
    rcases hcases k hk with ⟨h0, e⟩ | ⟨rfl, -⟩
    · rw [e]
      exact ht.bound k h0
    · rw [hg.inum]
      exact hi
  · intro j k hj hk hjk
    rcases hcases j hj with ⟨hj0, ej⟩ | ⟨rfl, hj0⟩ <;> rcases hcases k hk with ⟨hk0, ek⟩ | ⟨rfl, hk0⟩
    · rw [ej, ek] at hjk
      exact ht.unique j k hj0 hk0 hjk
    · rw [ej, hg.inum] at hjk
      exact absurd hjk ((hg.fresh hk0).2 j hj0)
    · rw [ek, hg.inum] at hjk
      exact absurd hjk.symm ((hg.fresh hj0).2 k hk0)
    · rfl
  · intro k hk hv
    rcases hcases k hk with ⟨h0, e⟩ | ⟨rfl, h0⟩
    · rw [e] at hv ⊢
      exact ht.mem k h0 hv
    · rw [(hg.fresh h0).1] at hv
      cases hv
  · intro k hk hv
    rcases hcases k hk with ⟨h0, e⟩ | ⟨rfl, h0⟩
    · rw [e] at hv ⊢
      exact ht.typed k h0 hv
    · rw [(hg.fresh h0).1] at hv
      cases hv
  · intro k hk
    rw [hg.locked] at hk
    obtain ⟨h0, hv⟩ := ht.locked k hk
    rw [hg.kept k h0]
    refine ⟨?_, hv⟩
    have := hg.ref k
    dsimp only
    omega

/-- The entries in use are the same. -/
structure SameTable (s s' : State) : Prop where
  only : OnlyTable s s'
  ref : ∀ k, (s'.itable k).ref = (s.itable k).ref
  kept : ∀ k, 0 < (s.itable k).ref → s'.itable k = s.itable k
  locked : ∀ k, (s'.itable k).locked = (s.itable k).locked

theorem SameTable.table (hs : SameTable s s') (ht : Table s V) : Table s' V := by
  have hsb : s'.sb = s.sb := by rw [hs.only]
  have hold : ∀ k, 0 < (s'.itable k).ref → 0 < (s.itable k).ref ∧ s'.itable k = s.itable k := by
    intro k hk
    rw [hs.ref] at hk
    exact ⟨hk, hs.kept k hk⟩
  constructor
  · intro k hk
    obtain ⟨h0, e⟩ := hold k hk
    rw [e, hsb]
    exact ht.bound k h0
  · intro j k hj hk
    obtain ⟨hj0, ej⟩ := hold j hj
    obtain ⟨hk0, ek⟩ := hold k hk
    rw [ej, ek]
    exact ht.unique j k hj0 hk0
  · intro k hk
    obtain ⟨h0, e⟩ := hold k hk
    rw [e]
    exact ht.mem k h0
  · intro k hk
    obtain ⟨h0, e⟩ := hold k hk
    rw [e]
    exact ht.typed k h0
  · intro k hk
    rw [hs.locked] at hk
    obtain ⟨h0, hv⟩ := ht.locked k hk
    rw [hs.kept k h0]
    exact ⟨h0, hv⟩

theorem Gets.iput {i : ℕ} (hg : Gets i ip s s') :
    Spec (iput ip) s' (fun _ s2 => SameTable s s2) E := by
  have href := hg.ref ip
  rw [if_pos rfl] at href
  apply spec_iput_keep
  · rintro ⟨h1, h2, -⟩
    rw [(hg.fresh (by omega)).1] at h2
    cases h2
  · refine ⟨hg.only.trans rfl, fun k => ?_, fun k hk => ?_, fun k => ?_⟩ <;> dsimp only <;>
      by_cases e : k = ip
    · subst e
      rw [update_self, href]
      exact add_sub_cancel_right ..
    · rw [update_of_ne e, hg.ref k, if_neg e, add_zero]
    · subst e
      rw [update_self, hg.kept k hk, href]
      dsimp only
      rw [add_sub_cancel_right]
    · rw [update_of_ne e, hg.kept k hk, hg.ref k, if_neg e, add_zero]
    · subst e
      rw [update_self, ← hg.locked k]
    · rw [update_of_ne e, hg.locked k]

end TatakOS.Fs
