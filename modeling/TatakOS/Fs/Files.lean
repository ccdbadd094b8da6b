import TatakOS.Fs.Disk

/-!
# The blocks of files

An inode names its blocks in slots: `NDIRECT` direct blocks, the indirect block itself, and the
`NINDIRECT` blocks that the indirect block names. `Slots` is the map from inodes and slots to
blocks. A slot is filled either in the inode (`slots_setAddr`) or in its indirect block
(`slots_setWord`), and writing into any other block leaves the map alone (`slots_write`).
-/

namespace TatakOS.Fs

open Function

/-! ## Maps without repeated values -/

/-- The non-zero values of `S` are different from each other and lie between `lo` and `hi`. -/
structure Slots (lo hi : ℕ) (S : ℕ → ℕ → ℕ) : Prop where
  inj : ∀ {i s j t}, S i s ≠ 0 → S i s = S j t → i = j ∧ s = t
  range : ∀ {i s}, S i s ≠ 0 → lo ≤ S i s ∧ S i s < hi

/-- Change one value. -/
def assign (S : ℕ → ℕ → ℕ) (i s b : ℕ) : ℕ → ℕ → ℕ :=
  update S i (update (S i) s b)

section

variable {lo hi hi' : ℕ} {S : ℕ → ℕ → ℕ} {i s j t b : ℕ}

theorem assign_self : assign S i s b i s = b := by
  unfold assign
  rw [update_self, update_self]

theorem assign_of_ne (h : j ≠ i ∨ t ≠ s) : assign S i s b j t = S j t := by
  unfold assign
  by_cases e : j = i
  · subst e
    rw [update_self, update_of_ne (h.resolve_left fun h => h rfl)]
  · rw [update_of_ne e]

theorem assign_eq_iff : assign S i s b j t = if j = i ∧ t = s then b else S j t := by
  by_cases h : j = i ∧ t = s
  · obtain ⟨rfl, rfl⟩ := h
    rw [assign_self, if_pos ⟨rfl, rfl⟩]
  · rw [assign_of_ne (by tauto), if_neg h]

theorem Slots.assign (h : Slots lo hi S) (hfresh : ∀ j t, S j t ≠ b) (hb : lo ≤ b ∧ b < hi')
    (hle : hi ≤ hi') : Slots lo hi' (assign S i s b) := by
  refine ⟨fun {i' s' j t} h1 h2 => ?_, fun {i' s'} h1 => ?_⟩
  · rw [assign_eq_iff] at h1 h2
    rw [assign_eq_iff] at h2
    split_ifs at h1 h2 with e1 e2 e2
    · exact ⟨e1.1.trans e2.1.symm, e1.2.trans e2.2.symm⟩
    · exact absurd h2.symm (hfresh j t)
    · exact absurd h2 (hfresh i' s')
    · exact h.inj h1 h2
  · rw [assign_eq_iff] at h1 ⊢
    split_ifs at h1 ⊢ with e
    · exact hb
    · have := h.range h1
      omega

theorem Slots.clear (h : Slots lo hi S) (i s : ℕ) : Slots lo hi (Fs.assign S i s 0) := by
  refine ⟨fun {i' s' j t} h1 h2 => ?_, fun {i' s'} h1 => ?_⟩
  · rw [assign_eq_iff] at h1 h2
    rw [assign_eq_iff] at h2
    split_ifs at h1 h2 with e1 e2 e2
    · exact absurd rfl h1
    · exact absurd rfl h1
    · exact absurd h2 h1
    · exact h.inj h1 h2
  · rw [assign_eq_iff] at h1 ⊢
    split_ifs at h1 ⊢ with e
    · exact absurd rfl h1
    · exact h.range h1

end

/-! ## The slots of an inode -/

/-- The block in slot `s` of an inode, 0 for none. -/
def slot (d : ℕ → Block) (x : Dinode) (s : ℕ) : ℕ :=
  if s ≤ NDIRECT then x.addrs s
  else if s ≤ MAXFILE ∧ x.addrs NDIRECT ≠ 0 then
    (d (x.addrs NDIRECT)).get (4 * (s - (NDIRECT + 1))) 4
  else 0

/-- The slots of all inodes. -/
def slots (d : ℕ → Block) (ino : ℕ → Dinode) : ℕ → ℕ → ℕ := fun i s => slot d (ino i) s

/-- The slot of block `bn` of a file. -/
def fileSlot (bn : ℕ) : ℕ := if bn < NDIRECT then bn else bn + 1

/-- Block `bn` of a file. -/
def fileBlock (d : ℕ → Block) (x : Dinode) (bn : ℕ) : ℕ := slot d x (fileSlot bn)

/-- The byte of a file at offset `o`. -/
def byteAt (d : ℕ → Block) (x : Dinode) (o : ℕ) : UInt8 := d (fileBlock d x (o / BSIZE)) (o % BSIZE)

variable {d d' : ℕ → Block} {ino : ℕ → Dinode} {x : Dinode} {lo hi i j s t b k bn : ℕ}

theorem fileSlot_inj {bn bn' : ℕ} (h : fileSlot bn = fileSlot bn') : bn = bn' := by
  unfold fileSlot at h
  split_ifs at h <;> omega

theorem fileSlot_ne (bn : ℕ) : fileSlot bn ≠ NDIRECT := by
  unfold fileSlot
  split_ifs <;> omega

theorem slot_direct (h : s ≤ NDIRECT) : slot d x s = x.addrs s := by
  unfold slot
  rw [if_pos h]

theorem slot_indirect (h : k < NINDIRECT) : slot d x (NDIRECT + 1 + k) =
    if x.addrs NDIRECT = 0 then 0 else (d (x.addrs NDIRECT)).get (4 * k) 4 := by
  unfold slot
  rw [if_neg (by omega), show NDIRECT + 1 + k - (NDIRECT + 1) = k by omega]
  by_cases h0 : x.addrs NDIRECT = 0
  · simp [h0]
  · rw [if_pos ⟨by unfold MAXFILE; omega, h0⟩, if_neg h0]

theorem slot_beyond (h : MAXFILE < s) : slot d x s = 0 := by
  unfold slot
  rw [if_neg (by unfold MAXFILE at h; omega), if_neg (by omega)]

theorem fileBlock_direct (h : bn < NDIRECT) : fileBlock d x bn = x.addrs bn := by
  unfold fileBlock fileSlot
  rw [if_pos h, slot_direct h.le]

theorem fileBlock_indirect (hd : NDIRECT ≤ bn) (h : bn - NDIRECT < NINDIRECT) :
    fileBlock d x bn = if x.addrs NDIRECT = 0 then 0
      else (d (x.addrs NDIRECT)).get (4 * (bn - NDIRECT)) 4 := by
  unfold fileBlock fileSlot
  rw [if_neg (by omega), show bn + 1 = NDIRECT + 1 + (bn - NDIRECT) by omega, slot_indirect h]

/-- A slot is in the inode, in the indirect block, or nowhere. -/
theorem slot_cases (s : ℕ) :
    s ≤ NDIRECT ∨ (∃ k < NINDIRECT, s = NDIRECT + 1 + k) ∨ MAXFILE < s := by
  unfold MAXFILE
  by_cases h : s ≤ NDIRECT
  · exact .inl h
  · by_cases h' : s ≤ NDIRECT + NINDIRECT
    · exact .inr (.inl ⟨s - (NDIRECT + 1), by omega, by omega⟩)
    · exact .inr (.inr (by omega))

theorem slot_congr (h : x.addrs NDIRECT ≠ 0 → d (x.addrs NDIRECT) = d' (x.addrs NDIRECT)) :
    slot d x s = slot d' x s := by
  unfold slot
  by_cases h0 : x.addrs NDIRECT = 0
  · simp [h0]
  · rw [h h0]

theorem slots_eq_indirect : slots d ino i NDIRECT = (ino i).addrs NDIRECT := slot_direct le_rfl

theorem slots_write {v : Block} (h : ∀ j, slots d ino j NDIRECT ≠ 0 → slots d ino j NDIRECT ≠ b) :
    slots (update d b v) ino = slots d ino := by
  funext j t
  refine slot_congr fun h0 => update_of_ne ?_ _ _
  have := h j
  rw [slots_eq_indirect] at this
  exact this h0

theorem Slots.write (h : Slots lo hi (slots d ino)) {v : Block} (hb : slots d ino i s = b)
    (hs : s ≠ NDIRECT) : slots (update d b v) ino = slots d ino := by
  refine slots_write fun j hj e => hs ?_
  rw [← hb] at e
  exact (h.inj hj e).2.symm

/-- Fill a slot of the inode: a direct one, or that of the indirect block with a block of
zeroes. -/
theorem slots_setAddr (hs : s ≤ NDIRECT) (h12 : s = NDIRECT → (ino i).addrs NDIRECT = 0 ∧
      ∀ k < NINDIRECT, (d b).get (4 * k) 4 = 0) :
    slots d (update ino i { ino i with addrs := update (ino i).addrs s b }) =
      assign (slots d ino) i s b := by
  funext j t
  rw [assign_eq_iff]
  unfold slots
  by_cases hj : j = i
  · subst hj
    rw [update_self]
    obtain ht | ⟨k, hk, rfl⟩ | ht := slot_cases t
    · rw [slot_direct ht, slot_direct ht]
      by_cases e : t = s
      · subst e
        simp
      · simp [e]
    · rw [slot_indirect hk, slot_indirect hk, if_neg (by omega : ¬ (j = j ∧ NDIRECT + 1 + k = s))]
      by_cases e12 : s = NDIRECT
      · obtain ⟨h0, hz⟩ := h12 e12
        subst e12
        rw [if_pos h0]
        simp only [update_self, hz k hk, ite_self]
      · simp only [update_of_ne (Ne.symm e12)]
    · have e : t ≠ s := by
        unfold MAXFILE at ht
        omega
      rw [slot_beyond ht, slot_beyond ht, if_neg (by tauto)]
  · rw [update_of_ne hj, if_neg (by tauto)]

theorem slots_setWord (h : Slots lo hi (slots d ino)) (hb0 : (ino i).addrs NDIRECT ≠ 0)
    (hk : k < NINDIRECT) (hb : b < 2 ^ 32) :
    slots (update d ((ino i).addrs NDIRECT)
        ((d ((ino i).addrs NDIRECT)).set (4 * k) 4 b)) ino =
      assign (slots d ino) i (NDIRECT + 1 + k) b := by
  funext j t
  rw [assign_eq_iff]
  by_cases hj : j = i
  · subst hj
    unfold slots
    obtain ht | ⟨k', hk', rfl⟩ | ht := slot_cases t
    · rw [slot_direct ht, slot_direct ht, if_neg (by omega)]
    · rw [slot_indirect hk', slot_indirect hk', if_neg hb0, if_neg hb0, update_self]
      by_cases e : k' = k
      · subst e
        rw [if_pos ⟨rfl, rfl⟩, Bytes.get_set_same]
        exact Nat.mod_eq_of_lt hb
      · rw [if_neg (by omega), Bytes.get_set_of_disjoint (by omega)]
    · have e : t ≠ NDIRECT + 1 + k := by
        unfold MAXFILE at ht
        omega
      rw [slot_beyond ht, slot_beyond ht, if_neg (by tauto)]
  · rw [if_neg (by tauto)]
    refine slot_congr fun h0 => update_of_ne (fun e => hj ?_) _ _
    have hij : slots d ino j NDIRECT = slots d ino i NDIRECT := by
      rw [slots_eq_indirect, slots_eq_indirect]
      exact e
    exact (h.inj (by rw [slots_eq_indirect]; exact h0) hij).1

end TatakOS.Fs
