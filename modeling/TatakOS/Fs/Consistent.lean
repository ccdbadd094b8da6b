import TatakOS.Fs.Blocks

/-!
# Consistent states

`V` gives every inode as the kernel sees it: from the inode table if it is there, else from the
disk. In a consistent state no block is in two slots, the bitmap marks the blocks in slots, and
files have no holes. `bmap` fills slots (`Grows`) and keeps the contents of all files.
-/

namespace TatakOS.Fs

open Function

variable {s s' s1 s2 : State} {V V' V1 V2 : ℕ → Dinode} {E : Panic × State → Prop}
variable {ip : Ip} {i b t : ℕ}

/-- The byte of a file at offset `o`; a missing block reads as zeroes. -/
def content (d : ℕ → Block) (x : Dinode) (o : ℕ) : UInt8 :=
  if fileBlock d x (o / BSIZE) = 0 then 0 else byteAt d x o

/-- The inode table holds an inode once at most, and what it says is in `V`. -/
structure Table (s : State) (V : ℕ → Dinode) : Prop where
  bound : ∀ k, 0 < (s.itable k).ref → (s.itable k).inum < s.sb.ninodes
  unique : ∀ j k, 0 < (s.itable j).ref → 0 < (s.itable k).ref →
    (s.itable j).inum = (s.itable k).inum → j = k
  mem : ∀ k, 0 < (s.itable k).ref → (s.itable k).valid = true →
    (s.itable k).din = V (s.itable k).inum
  typed : ∀ k, 0 < (s.itable k).ref → (s.itable k).valid = true → (V (s.itable k).inum).type ≠ 0
  locked : ∀ k, (s.itable k).locked = true → 0 < (s.itable k).ref ∧ (s.itable k).valid = true

/-- Blocks belong to one slot of one inode, or to none. -/
structure Owned (sb : Superblock) (d : ℕ → Block) (V : ℕ → Dinode) : Prop where
  layout : sb.Layout
  slots : Slots sb.dataStart sb.size (slots d V)
  marked : Marked sb d (Fs.slots d V)
  fits : ∀ i, (V i).Fits
  free : ∀ i, (V i).type = 0 → ∀ t, slot d (V i) t = 0
  beyond : ∀ i, sb.ninodes ≤ i → (V i).type = 0

/-- A consistent state, where the inode with number `D` may be newer than on the disk. -/
structure Consistent (D : Option ℕ) (s : State) (V : ℕ → Dinode) : Prop where
  table : Table s V
  owned : Owned s.sb s.blk V
  full : ∀ i bn, bn * BSIZE < (V i).size → fileBlock s.blk (V i) bn ≠ 0
  clean : ∀ i < s.sb.ninodes, D ≠ some i → dinode s.sb s.blk i = V i

theorem Owned.above {sb : Superblock} {d : ℕ → Block} (h : Owned sb d V)
    (h0 : Fs.slots d V i t ≠ 0) : sb.inodestart ≤ Fs.slots d V i t :=
  h.layout.inodestart_lt_dataStart.le.trans (h.slots.range h0).1

theorem Owned.inodestart_le_indirect {sb : Superblock} {d : ℕ → Block} (h : Owned sb d V)
    (h0 : (V i).addrs NDIRECT ≠ 0) : sb.inodestart ≤ (V i).addrs NDIRECT := by
  rw [← slots_eq_indirect (d := d)] at h0 ⊢
  exact h.above h0

/-- An inode in use may change, as long as the slots of the others stay. -/
theorem Owned.setInode {sb : Superblock} {d d' : ℕ → Block} (h : Owned sb d V) (hi : i < sb.ninodes)
    (hV : ∀ j, j ≠ i → V' j = V j) (hfits : (V' i).Fits) (htype : (V' i).type ≠ 0)
    (hslots : Slots sb.dataStart sb.size (Fs.slots d' V')) (hmarked : Marked sb d' (Fs.slots d' V'))
    (hothers : ∀ j, j ≠ i → ∀ t, Fs.slots d' V' j t = Fs.slots d V j t) : Owned sb d' V' where
  layout := h.layout
  slots := hslots
  marked := hmarked
  fits j := by
    by_cases e : j = i
    · rw [e]
      exact hfits
    · rw [hV j e]
      exact h.fits j
  free j hj t := by
    have e : j ≠ i := fun e => htype (e ▸ hj)
    rw [hV j e] at hj
    exact (hothers j e t).trans (h.free j hj t)
  beyond j hj := by
    rw [hV j (by omega)]
    exact h.beyond j hj

theorem fileBlock_of_slots {d d' : ℕ → Block} (h : slots d' V' = slots d V) (j bn : ℕ) :
    fileBlock d' (V' j) bn = fileBlock d (V j) bn := congrFun (congrFun h j) _

/-! ## The inode table -/

section Table

theorem entry_setDin {x : Dinode} (h : s'.itable = update s.itable ip { s.itable ip with din := x })
    (k : Ip) : ∃ y, s'.itable k = { s.itable k with din := y } := by
  rw [h]
  by_cases e : k = ip
  · subst e
    exact ⟨_, update_self _ _ _⟩
  · exact ⟨_, update_of_ne e _ _⟩

variable (h : Table s V)
include h

theorem Table.congr (hsb : s'.sb = s.sb) (htab : s'.itable = s.itable) : Table s' V := by
  constructor <;> rw [htab]
  · rw [hsb]
    exact h.bound
  · exact h.unique
  · exact h.mem
  · exact h.typed
  · exact h.locked

theorem Table.held (hl : (s.itable ip).locked = true) : (s.itable ip).din = V (s.itable ip).inum :=
  h.mem ip (h.locked ip hl).1 (h.locked ip hl).2

theorem Table.setDin (hsb : s'.sb = s.sb) (hl : (s.itable ip).locked = true)
    (htab : s'.itable = update s.itable ip { s.itable ip with din := V' (s.itable ip).inum })
    (hty : (V' (s.itable ip).inum).type ≠ 0)
    (hV : ∀ j, j ≠ (s.itable ip).inum → V' j = V j) : Table s' V' := by
  have hsame := entry_setDin htab
  have hdin : ∀ k, 0 < (s'.itable k).ref → (s'.itable k).valid = true →
      (s'.itable k).din = V' (s'.itable k).inum ∧ (V' (s'.itable k).inum).type ≠ 0 := by
    intro k hk hv
    by_cases e : k = ip
    · rw [e, htab, update_self]
      exact ⟨rfl, hty⟩
    · rw [htab, update_of_ne e] at hk hv ⊢
      rw [hV _ fun e' => e (h.unique k ip hk (h.locked ip hl).1 e')]
      exact ⟨h.mem k hk hv, h.typed k hk hv⟩
  refine ⟨fun k => ?_, fun j k => ?_, fun k hk hv => (hdin k hk hv).1,
    fun k hk hv => (hdin k hk hv).2, fun k => ?_⟩
  · obtain ⟨y, hy⟩ := hsame k
    rw [hy, hsb]
    exact h.bound k
  · obtain ⟨y, hy⟩ := hsame j
    obtain ⟨z, hz⟩ := hsame k
    rw [hy, hz]
    exact h.unique j k
  · obtain ⟨y, hy⟩ := hsame k
    rw [hy]
    exact h.locked k

end Table

/-! ## Slots that get a block -/

theorem slots_congr {d d' : ℕ → Block} (h : ∀ j, (V j).addrs NDIRECT ≠ 0 →
    d' ((V j).addrs NDIRECT) = d ((V j).addrs NDIRECT)) : slots d' V = slots d V := by
  funext j u
  exact slot_congr (h j)

theorem Alloc.slots (h : Alloc (slots s.blk V) s b s')
    (hS : Slots s.sb.dataStart s.sb.size (slots s.blk V)) : slots s'.blk V = slots s.blk V := by
  refine slots_congr fun j hj => ?_
  rw [← slots_eq_indirect (d := s.blk)] at hj ⊢
  exact h.others _ (h.fresh j _) (.inr (hS.range hj).1)

theorem Alloc.ne_zero {S : ℕ → ℕ → ℕ} (h : Alloc S s b s') : b ≠ 0 := by
  have h1 := h.range.1
  have h2 : 0 < s.sb.dataStart := Nat.succ_pos _
  omega

/-- Of the inodes only that of `ip` changes, and its copy in the table with it. -/
structure Edits (ip : Ip) (s : State) (V : ℕ → Dinode) (s' : State) (V' : ℕ → Dinode) : Prop where
  itable : s'.itable = update s.itable ip
    { s.itable ip with din := V' (s.itable ip).inum }
  others : ∀ j, j ≠ (s.itable ip).inum → V' j = V j

section Edits

theorem Edits.refl (htab : s'.itable = s.itable) (h : (s.itable ip).din = V (s.itable ip).inum) :
    Edits ip s V s' V where
  itable := by
    rw [htab, ← h]
    exact (update_eq_self _ _).symm
  others _ _ := rfl

variable (h : Edits ip s V s' V')
include h

theorem Edits.entry : s'.itable ip = { s.itable ip with din := V' (s.itable ip).inum } := by
  rw [h.itable, update_self]

theorem Edits.inum (k : Ip) : (s'.itable k).inum = (s.itable k).inum := by
  obtain ⟨y, hy⟩ := entry_setDin h.itable k
  rw [hy]

theorem Edits.locked (k : Ip) : (s'.itable k).locked = (s.itable k).locked := by
  obtain ⟨y, hy⟩ := entry_setDin h.itable k
  rw [hy]

theorem Edits.trans (h' : Edits ip s' V' s2 V2) : Edits ip s V s2 V2 := by
  have hi := h.inum ip
  constructor
  · rw [h'.itable, hi, h.entry, h.itable, update_idem]
  · exact fun j hj => (h'.others j (hi ▸ hj)).trans (h.others j hj)

end Edits

/-- The inode of `ip` may get blocks. Its disk copy is not up to date then. -/
structure Extends (ip : Ip) (s : State) (V : ℕ → Dinode) (s' : State) (V' : ℕ → Dinode) : Prop
    extends Edits ip s V s' V' where
  rep : Consistent (some (s.itable ip).inum) s' V'
  changes : Changes s s'
  head : V' (s.itable ip).inum =
    { V (s.itable ip).inum with addrs := (V' (s.itable ip).inum).addrs }
  keep : ∀ j u, slots s.blk V j u ≠ 0 → slots s'.blk V' j u = slots s.blk V j u
  foreign : ∀ j u, j ≠ (s.itable ip).inum → slots s'.blk V' j u = slots s.blk V j u
  inodes : ∀ j < s.sb.ninodes, dinode s.sb s'.blk j = dinode s.sb s.blk j

section Extends

theorem Extends.refl (h : Consistent (some (s.itable ip).inum) s V)
    (hl : (s.itable ip).locked = true) : Extends ip s V s V where
  toEdits := .refl rfl (h.table.held hl)
  rep := h
  changes := .refl s
  head := rfl
  keep _ _ _ := rfl
  foreign _ _ _ := rfl
  inodes _ _ := rfl

theorem Extends.trans (h : Extends ip s V s1 V1) (h' : Extends ip s1 V1 s2 V2) :
    Extends ip s V s2 V2 := by
  have hi := h.inum ip
  exact {
    toEdits := h.toEdits.trans h'.toEdits
    rep := hi ▸ h'.rep
    changes := h.changes.trans h'.changes
    head := by
      have h2 := h'.head
      rw [hi, h.head] at h2
      exact h2
    keep := fun j u hu => by
      have h1 := h.keep j u hu
      rw [h'.keep j u (h1 ▸ hu), h1]
    foreign := fun j u hj => (h'.foreign j u (hi ▸ hj)).trans (h.foreign j u hj)
    inodes := fun j hj => by
      have h2 := h'.inodes j (h.changes.sb ▸ hj)
      rw [h.changes.sb] at h2
      exact h2.trans (h.inodes j hj) }

/-- What holds of the blocks that code does not write to: a data block is new in the log only if it
is new in its slot. -/
def Untouched (s : State) (V : ℕ → Dinode) (s' : State) (V' : ℕ → Dinode) (j u : ℕ) : Prop :=
  if slots s.blk V j u = 0 then slots s'.blk V' j u ≠ 0 → slots s'.blk V' j u ∈ s'.log.lh
  else s'.blk (slots s.blk V j u) = s.blk (slots s.blk V j u) ∧
    (slots s.blk V j u ∈ s'.log.lh → slots s.blk V j u ∈ s.log.lh)

theorem Untouched.refl (j u : ℕ) : Untouched s V s V j u := by
  unfold Untouched
  split_ifs with h
  · exact fun h' => absurd h h'
  · exact ⟨rfl, id⟩

theorem Untouched.trans {j u : ℕ} (hx : Extends ip s V s1 V1) (hx' : Extends ip s1 V1 s2 V2)
    (h : Untouched s V s1 V1 j u) (h' : Untouched s1 V1 s2 V2 j u) : Untouched s V s2 V2 j u := by
  unfold Untouched at *
  by_cases h0 : slots s.blk V j u = 0
  · rw [if_pos h0] at h ⊢
    by_cases h1 : slots s1.blk V1 j u = 0
    · rwa [if_pos h1] at h'
    · intro _
      rw [hx'.keep j u h1]
      exact hx'.changes.lh _ (h h1)
  · rw [if_neg h0] at h ⊢
    have hkeep := hx.keep j u h0
    rw [hkeep, if_neg h0] at h'
    exact ⟨h'.1.trans h.1, fun hm => h.2 (h'.2 hm)⟩

end Extends

/-- Slots get blocks of zeroes, and nothing else happens to the files. -/
structure Grows (ip : Ip) (s : State) (V : ℕ → Dinode) (s' : State) (V' : ℕ → Dinode) : Prop
    extends Extends ip s V s' V' where
  content : ∀ j o, content s'.blk (V' j) o = content s.blk (V j) o
  data : ∀ j u, u ≠ NDIRECT → Untouched s V s' V' j u

section Grows

theorem Grows.refl (h : Consistent (some (s.itable ip).inum) s V)
    (hl : (s.itable ip).locked = true) : Grows ip s V s V :=
  ⟨.refl h hl, fun _ _ => rfl, fun j u _ => .refl j u⟩

theorem Grows.trans (h : Grows ip s V s1 V1) (h' : Grows ip s1 V1 s2 V2) : Grows ip s V s2 V2 :=
  ⟨h.toExtends.trans h'.toExtends, fun j o => (h'.content j o).trans (h.content j o),
    fun j u hu => (h.data j u hu).trans h.toExtends h'.toExtends (h'.data j u hu)⟩

theorem content_assign {d d' : ℕ → Block} (hslots : slots d' V' = assign (slots d V) i t b)
    (h0 : slots d V i t = 0) (hzero : d' b = fun _ => 0)
    (hdata : ∀ j u, u ≠ NDIRECT → slots d V j u ≠ 0 → d' (slots d V j u) = d (slots d V j u))
    (j o : ℕ) : Fs.content d' (V' j) o = Fs.content d (V j) o := by
  have hnew : fileBlock d' (V' j) (o / BSIZE) =
      assign (slots d V) i t b j (fileSlot (o / BSIZE)) := by
    rw [← hslots]
    rfl
  unfold Fs.content byteAt
  by_cases e : j = i ∧ fileSlot (o / BSIZE) = t
  · obtain ⟨rfl, rfl⟩ := e
    have hold : fileBlock d (V j) (o / BSIZE) = 0 := h0
    rw [if_pos hold, hnew, assign_self, hzero, ite_self]
  · rw [assign_of_ne (by tauto)] at hnew
    have hold : fileBlock d' (V' j) (o / BSIZE) = fileBlock d (V j) (o / BSIZE) := hnew
    rw [hold]
    split_ifs with hb
    · rfl
    · exact congrFun (hdata j _ (fileSlot_ne _) hb) _

/-- A block that `balloc` gave is in an empty slot of the inode. Besides, only the indirect block of
the inode changes. -/
structure Fills (ip : Ip) (t b : ℕ) (s : State) (V : ℕ → Dinode) (s1 s' : State) (V' : ℕ → Dinode) :
    Prop extends Edits ip s V s' V' where
  alloc : Alloc (slots s.blk V) s b s1
  changes : Changes s1 s'
  head : V' (s.itable ip).inum =
    { V (s.itable ip).inum with addrs := (V' (s.itable ip).inum).addrs }
  fits : (V' (s.itable ip).inum).Fits
  slots : slots s'.blk V' = assign (slots s.blk V) (s.itable ip).inum t b
  empty : Fs.slots s.blk V (s.itable ip).inum t = 0
  blk : ∀ c, s'.blk c ≠ s1.blk c → c ≠ 0 ∧ c = Fs.slots s.blk V (s.itable ip).inum NDIRECT
  lh : ∀ c ∈ s'.log.lh, c ∈ s1.log.lh ∨
    c ≠ 0 ∧ c = Fs.slots s.blk V (s.itable ip).inum NDIRECT

section Fills

variable (hf : Fills ip t b s V s1 s' V')
include hf

theorem Fills.sb : s'.sb = s.sb := hf.changes.sb.trans hf.alloc.changes.sb

theorem Fills.cases (j u : ℕ) : (j = (s.itable ip).inum ∧ u = t) ∧ Fs.slots s'.blk V' j u = b ∨
    Fs.slots s'.blk V' j u = Fs.slots s.blk V j u := by
  rw [hf.slots]
  by_cases e : j = (s.itable ip).inum ∧ u = t
  · obtain ⟨rfl, rfl⟩ := e
    exact .inl ⟨⟨rfl, rfl⟩, assign_self⟩
  · exact .inr (assign_of_ne (by tauto))

theorem Fills.same_head (j : ℕ) : (V' j).type = (V j).type ∧ (V' j).size = (V j).size := by
  by_cases e : j = (s.itable ip).inum
  · rw [e, hf.head]
    exact ⟨rfl, rfl⟩
  · rw [hf.others j e]
    exact ⟨rfl, rfl⟩

variable (h : Consistent (some (s.itable ip).inum) s V)
include h

theorem Fills.low {c : ℕ} (hc : c < s.sb.dataStart) : s'.blk c = s1.blk c := by
  by_contra hne
  obtain ⟨hc0, rfl⟩ := hf.blk c hne
  exact absurd (h.owned.slots.range hc0).1 (by omega)

theorem Fills.inodes {j : ℕ} (hj : j < s.sb.ninodes) :
    dinode s.sb s'.blk j = dinode s.sb s.blk j := by
  have hlt := h.owned.layout.IBLOCK_lt hj
  have hds : s.sb.bmapstart < s.sb.dataStart := Superblock.bmapstart_lt_dataStart
  have hb := hf.alloc.range.1
  refine dinode_congr ((hf.low h (by omega)).trans ?_)
  exact hf.alloc.others _ (by omega) (.inl hlt)

theorem Fills.data {j u : ℕ} (hu : u ≠ NDIRECT) (hju : Fs.slots s.blk V j u ≠ 0) :
    s'.blk (Fs.slots s.blk V j u) = s.blk (Fs.slots s.blk V j u) := by
  have h1 : s'.blk (Fs.slots s.blk V j u) = s1.blk (Fs.slots s.blk V j u) := by
    by_contra hne
    exact hu (h.owned.slots.inj hju (hf.blk _ hne).2).2
  rw [h1]
  exact hf.alloc.others _ (hf.alloc.fresh j u) (.inr (h.owned.slots.range hju).1)

theorem Fills.untouched {j u : ℕ} (hu : u ≠ NDIRECT) : Untouched s V s' V' j u := by
  unfold Untouched
  obtain ⟨⟨rfl, rfl⟩, e⟩ | e := hf.cases j u
  · rw [if_pos hf.empty, e]
    exact fun _ => hf.changes.lh b hf.alloc.logged
  · rw [e]
    split_ifs with hju
    · exact fun hne => absurd hju hne
    · refine ⟨hf.data h hu hju, fun hm => ?_⟩
      obtain hm1 | ⟨-, hind⟩ := hf.lh _ hm
      · obtain hb | hlt | hm0 := hf.alloc.lh _ hm1
        · exact absurd hb (hf.alloc.fresh j u)
        · exact absurd (h.owned.slots.range hju).1 (by omega)
        · exact hm0
      · exact absurd (h.owned.slots.inj hju hind).2 hu

variable (hl : (s.itable ip).locked = true)
include hl

theorem Fills.rep : Consistent (some (s.itable ip).inum) s' V' := by
  obtain ⟨href, hval⟩ := h.table.locked ip hl
  have htype : (V' (s.itable ip).inum).type ≠ 0 := by
    rw [(hf.same_head _).1]
    exact h.table.typed ip href hval
  constructor
  · exact h.table.setDin hf.sb hl hf.itable htype hf.others
  · rw [hf.sb]
    refine h.owned.setInode (h.table.bound ip href) hf.others hf.fits htype ?_ ?_ fun j hj u => ?_
    · rw [hf.slots]
      exact h.owned.slots.assign hf.alloc.fresh hf.alloc.range le_rfl
    · rw [hf.slots]
      intro c hc
      rw [inUse_congr (hf.low h (Superblock.BBLOCK_lt hc))]
      exact hf.alloc.assign h.owned.marked hf.empty c hc
    · exact (hf.cases j u).resolve_left fun e => hj e.1.1
  · intro j bn hbn
    rw [(hf.same_head j).2] at hbn
    obtain ⟨-, e⟩ | e := hf.cases j (fileSlot bn)
    · exact fun h0 => hf.alloc.ne_zero (e.symm.trans h0)
    · exact fun h0 => h.full j bn hbn (e.symm.trans h0)
  · intro j hj hne
    rw [hf.sb] at hj ⊢
    rw [hf.inodes h hj, hf.others j fun e => hne (congrArg some e.symm)]
    exact h.clean j hj hne

/-- A new block is zeroed, so no file reads differently. -/
theorem Fills.grows : Grows ip s V s' V' where
  toEdits := hf.toEdits
  rep := hf.rep h hl
  changes := hf.alloc.changes.trans hf.changes
  head := hf.head
  keep j u hju := (hf.cases j u).resolve_left fun e => hju (e.1.1 ▸ e.1.2 ▸ hf.empty)
  foreign j u hj := (hf.cases j u).resolve_left fun e => hj e.1.1
  inodes _ hj := hf.inodes h hj
  content := by
    refine content_assign hf.slots hf.empty ?_ fun j u => hf.data h
    rw [← hf.alloc.zero]
    by_contra hne
    exact hf.alloc.fresh _ _ (hf.blk b hne).2.symm
  data _ _ hu := hf.untouched h hu

end Fills

section Bmap

variable (hE : Allows E) (h : Consistent (some (s.itable ip).inum) s V)
  (hl : (s.itable ip).locked = true)
include hE h hl

theorem ballocAddr_spec (ht : t ≤ NDIRECT) (h0 : (V (s.itable ip).inum).addrs t = 0) :
    Spec (do
        let b ← balloc
        setDin ip fun din => { din with addrs := update din.addrs t b }
        return b : Kern ℕ) s
      (fun b s' => ∃ V', Grows ip s V s' V' ∧ b = (V' (s.itable ip).inum).addrs t ∧ b ≠ 0) E := by
  refine (balloc_spec hE h.owned.layout h.owned.marked).bind fun b s1 ha => ?_
  unfold setDin setInode
  simp only [spec_bind, spec_get, spec_modify, spec_pure]
  set i := (s.itable ip).inum with hi
  set x : Dinode := { V i with addrs := update (V i).addrs t b } with hx
  have hVi : update V i x i = x := update_self _ _ _
  refine ⟨update V i x, ?_, ?_, ha.ne_zero⟩
  · refine Fills.grows ⟨⟨?_, fun j hj => update_of_ne hj _ _⟩, ha, (Changes.refl s1).of_itable, ?_, ?_,
      ?_, (slot_direct ht).trans h0, fun c hc => absurd rfl hc, fun c hc => .inl hc⟩ h hl
    · show update s1.itable ip _ = _
      rw [ha.itable, h.table.held hl, ← hi, hVi]
    · rw [← hi, hVi]
    · rw [← hi, hVi]
      exact (h.owned.fits i).setAddr ht (ha.range.2.trans h.owned.layout.size)
    · show slots s1.blk (update V i x) = _
      rw [hx, slots_setAddr ht, ha.slots h.owned.slots]
      rintro rfl
      refine ⟨h0, fun k _ => ?_⟩
      rw [ha.zero]
      exact Bytes.get_zero
  · rw [hVi, hx]
    dsimp only
    rw [update_self]

theorem bmapIndirect_spec :
    Spec (bmapIndirect ip) s (fun b s' => ∃ V', Grows ip s V s' V' ∧
      b = (V' (s.itable ip).inum).addrs NDIRECT ∧ b ≠ 0) E := by
  unfold bmapIndirect
  rw [spec_get_bind]
  dsimp only
  rw [h.table.held hl]
  split
  · rename_i h0
    exact ballocAddr_spec hE h hl le_rfl h0
  · rename_i h0
    rw [spec_pure]
    exact ⟨V, .refl h hl, rfl, h0⟩

theorem ballocWord_spec {k : ℕ} (hk : k < NINDIRECT)
    (hind : (V (s.itable ip).inum).addrs NDIRECT ≠ 0)
    (h0 : slots s.blk V (s.itable ip).inum (NDIRECT + 1 + k) = 0) :
    Spec (do
        let b ← balloc
        let a ← bread ((V (s.itable ip).inum).addrs NDIRECT)
        store ((V (s.itable ip).inum).addrs NDIRECT) (a.set (4 * k) 4 b)
        logWrite ((V (s.itable ip).inum).addrs NDIRECT)
        return b : Kern ℕ) s
      (fun b s' => Grows ip s V s' V ∧
        b = slots s'.blk V (s.itable ip).inum (NDIRECT + 1 + k) ∧ b ≠ 0) E := by
  refine (balloc_spec hE h.owned.layout h.owned.marked).bind fun b s1 ha => ?_
  unfold bread
  simp only [spec_bind, spec_get, spec_pure]
  set i := (s.itable ip).inum with hi
  have habove : s1.sb.inodestart ≤ (V i).addrs NDIRECT := by
    rw [ha.changes.sb]
    exact h.owned.inodestart_le_indirect hind
  refine spec_store_logWrite hE habove fun s' hch hblk htab hlh => ?_
  have hslots1 := ha.slots h.owned.slots
  have hS1 : Slots s.sb.dataStart s.sb.size (slots s1.blk V) := by
    rw [hslots1]
    exact h.owned.slots
  have hb32 : b < 2 ^ 32 := ha.range.2.trans h.owned.layout.size
  have hslots : slots s'.blk V = assign (slots s.blk V) i (NDIRECT + 1 + k) b := by
    rw [hblk, slots_setWord hS1 hind hk hb32, hslots1]
  refine ⟨?_, ?_, ha.ne_zero⟩
  · refine Fills.grows ⟨.refl (htab.trans ha.itable) (h.table.held hl), ha, hch, rfl,
      h.owned.fits _, hslots, h0, fun c hc => ?_, fun c hc => ?_⟩ h hl
    · have hce : c = (V i).addrs NDIRECT := by
        by_contra hne
        exact hc (by rw [hblk, update_of_ne hne])
      rw [slots_eq_indirect, hce]
      exact ⟨hind, rfl⟩
    · rw [slots_eq_indirect]
      obtain rfl | hc1 := (hlh c).mp hc
      · exact .inr ⟨hind, rfl⟩
      · exact .inl hc1
  · rw [hslots, assign_self]

/-- `bmap` gives the block of the file, and puts a new one there if there is none. -/
theorem bmap_spec {bn : ℕ} (hbn : bn < MAXFILE) :
    Spec (bmap ip bn) s (fun b s' => ∃ V', Grows ip s V s' V' ∧
      b = fileBlock s'.blk (V' (s.itable ip).inum) bn ∧ b ≠ 0) E := by
  unfold bmap
  rw [spec_get_bind]
  dsimp only
  rw [h.table.held hl]
  by_cases hd : bn < NDIRECT
  · simp only [fileBlock_direct hd]
    rw [if_pos hd]
    split
    · rename_i h0
      exact ballocAddr_spec hE h hl hd.le h0
    · rename_i h0
      rw [spec_pure]
      exact ⟨V, .refl h hl, rfl, h0⟩
  · have hk : bn - NDIRECT < NINDIRECT := by
      unfold MAXFILE at hbn
      omega
    have hfb : ∀ d (W : ℕ → Dinode) j, fileBlock d (W j) bn =
        slots d W j (NDIRECT + 1 + (bn - NDIRECT)) := by
      intro d W j
      unfold fileBlock fileSlot slots
      rw [if_neg hd, show bn + 1 = NDIRECT + 1 + (bn - NDIRECT) by omega]
    simp only [hfb]
    rw [if_neg hd, if_pos hk]
    refine (bmapIndirect_spec hE h hl).bind ?_
    rintro a s1 ⟨V1, hg, rfl, ha⟩
    have hrep := hg.rep
    rw [← hg.inum ip] at hrep ha ⊢
    have hl1 : (s1.itable ip).locked = true := by rwa [hg.locked]
    have hword : slots s1.blk V1 (s1.itable ip).inum (NDIRECT + 1 + (bn - NDIRECT)) =
        (s1.blk ((V1 (s1.itable ip).inum).addrs NDIRECT)).get (4 * (bn - NDIRECT)) 4 := by
      unfold slots
      rw [slot_indirect hk, if_neg ha]
    rw [spec_bind]
    unfold bread
    rw [spec_get_bind, spec_pure, ← hword]
    split
    · rename_i h0
      refine (ballocWord_spec hE hrep hl1 hk ha h0).imp ?_
      rintro b s2 ⟨hg2, hb⟩
      exact ⟨V1, hg.trans hg2, hb⟩
    · rename_i h0
      rw [spec_pure]
      exact ⟨V1, hg, rfl, h0⟩

end Bmap

end Grows

/-! ## Reading -/

variable {D : Option ℕ}

/-- `readi` returns the bytes of the file. -/
theorem Consistent.readi_spec (h : Consistent D s V) (href : 0 < (s.itable ip).ref)
    (hval : (s.itable ip).valid = true) {dst : Mem} {o m : ℕ} (hdst : dst.Takes m)
    (hm : o + m < 2 ^ 32) :
    Spec (readi ip dst o m) s (fun r s' => s' = s ∧
      r = some ((List.range (min m ((V (s.itable ip).inum).size - o))).map fun j =>
        content s.blk (V (s.itable ip).inum) (o + j))) E := by
  have hmem := h.table.mem ip href hval
  set i := (s.itable ip).inum
  have hmap : ∀ o < (V i).size, fileBlock s.blk (V i) (o / BSIZE) ≠ 0 := fun o ho =>
    h.full i _ ((Nat.div_mul_le_self _ _).trans_lt ho)
  by_cases ho : o ≤ (V i).size
  · refine (readi_mapped hdst (by rwa [hmem]) hm fun o' _ _ ho' => ?_).imp ?_
    · rw [hmem] at ho' ⊢
      exact hmap o' ho'
    · rintro r s' ⟨rfl, rfl⟩
      refine ⟨rfl, ?_⟩
      rw [hmem]
      congr 1
      refine List.map_congr_left fun j hj => ?_
      have hj' := List.mem_range.mp hj
      unfold content
      rw [if_neg (hmap _ (by omega))]
  · unfold readi
    rw [spec_get_bind, hmem, if_pos (by omega), spec_pure]
    refine ⟨rfl, ?_⟩
    rw [show min m ((V i).size - o) = 0 by omega]
    rfl

/-! ## Changes of an inode -/

theorem Consistent.weaken (h : Consistent none s V) : Consistent D s V :=
  ⟨h.table, h.owned, h.full, fun i hi _ => h.clean i hi nofun⟩

section Data

variable {sb : Superblock} {d d' : ℕ → Block} {x : Dinode}

theorem slots_of_data (hS : Slots sb.dataStart sb.size (slots d V))
    (hd : ∀ c, sb.dataStart ≤ c → d' c = d c) : slots d' V = slots d V := by
  refine slots_congr fun j hj => hd _ ?_
  rw [← slots_eq_indirect (d := d)] at hj ⊢
  exact (hS.range hj).1

theorem content_of_data (hS : Slots sb.dataStart sb.size (slots d V))
    (hd : ∀ c, sb.dataStart ≤ c → d' c = d c) (j o : ℕ) :
    content d' (V j) o = content d (V j) o := by
  have hslot := fileBlock_of_slots (slots_of_data hS hd) j (o / BSIZE)
  unfold content byteAt
  rw [hslot]
  split_ifs with h0
  · rfl
  · exact congrFun (hd _ (hS.range (i := j) h0).1) _

theorem Owned.congr (h : Owned sb d V) (hslots : Fs.slots d' V = Fs.slots d V)
    (hbits : ∀ c < sb.size, inUse sb d' c = inUse sb d c) : Owned sb d' V where
  layout := h.layout
  slots := by
    rw [hslots]
    exact h.slots
  marked c hc := by
    rw [hslots, hbits c hc]
    exact h.marked c hc
  fits := h.fits
  free i hi t := (congrFun (congrFun hslots i) t).trans (h.free i hi t)
  beyond := h.beyond

/-- What a change of blocks has to keep. -/
theorem Consistent.of_slots {D' : Option ℕ} (h : Consistent D s V) (hsb : s'.sb = s.sb)
    (htab : s'.itable = s.itable) (hslots : slots s'.blk V = slots s.blk V)
    (hbits : ∀ c < s.sb.size, inUse s.sb s'.blk c = inUse s.sb s.blk c)
    (hclean : ∀ j < s.sb.ninodes, D' ≠ some j → dinode s.sb s'.blk j = V j) :
    Consistent D' s' V := by
  refine ⟨h.table.congr hsb htab, ?_, fun j bn hbn => ?_, ?_⟩
  · rw [hsb]
    exact h.owned.congr hslots hbits
  · rw [fileBlock_of_slots hslots]
    exact h.full j bn hbn
  · rw [hsb]
    exact hclean

theorem Consistent.congr (h : Consistent D s V) (hsb : s'.sb = s.sb)
    (htab : s'.itable = s.itable) (hblk : ∀ c, s.sb.inodestart ≤ c → s'.blk c = s.blk c) :
    Consistent D s' V := by
  have hL := h.owned.layout
  refine h.of_slots hsb htab (slots_of_data h.owned.slots fun c hc =>
    hblk c (hL.inodestart_lt_dataStart.le.trans hc))
    (fun c _ => inUse_congr (hblk _ hL.inodestart_le_BBLOCK)) fun j hj hne => ?_
  rw [dinode_congr (hblk _ Superblock.inodestart_le_IBLOCK)]
  exact h.clean j hj hne

theorem slot_addrs {y : Dinode} (h : x.addrs = y.addrs) : slot d x t = slot d y t := by
  unfold slot
  rw [h]

theorem slots_setHead (h : x.addrs = (V i).addrs) : slots d (update V i x) = slots d V := by
  funext j u
  unfold slots
  by_cases e : j = i
  · subst e
    rw [update_self, slot_addrs h]
  · rw [update_of_ne e]

theorem content_setHead (h : x.addrs = (V i).addrs) (j o : ℕ) :
    content d (update V i x j) o = content d (V j) o := by
  unfold content byteAt
  rw [fileBlock_of_slots (slots_setHead h)]

theorem Consistent.setHead (h : Consistent (some (s.itable ip).inum) s V)
    (hl : (s.itable ip).locked = true) (haddrs : x.addrs = (V (s.itable ip).inum).addrs)
    (hfits : x.Fits) (htype : x.type ≠ 0)
    (hfull : ∀ bn, bn * BSIZE < x.size → fileBlock s.blk (V (s.itable ip).inum) bn ≠ 0) :
    Consistent (some (s.itable ip).inum)
      { s with itable := update s.itable ip { s.itable ip with din := x } }
      (update V (s.itable ip).inum x) := by
  set i := (s.itable ip).inum with hi
  have hVi : update V i x i = x := update_self _ _ _
  have hO := h.owned
  have hbound : i < s.sb.ninodes := h.table.bound ip (h.table.locked ip hl).1
  have hV : ∀ j, j ≠ i → update V i x j = V j := fun j hj => update_of_ne hj _ _
  have htype' : (update V i x i).type ≠ 0 := by rwa [hVi]
  constructor
  · refine h.table.setDin rfl hl ?_ htype' hV
    rw [← hi, hVi]
  · refine hO.setInode hbound hV (by rwa [hVi]) htype' ?_ ?_ fun j _ u => ?_ <;>
      rw [slots_setHead haddrs]
    · exact hO.slots
    · exact hO.marked
  · intro j bn hbn
    rw [fileBlock_of_slots (slots_setHead haddrs)]
    by_cases e : j = i
    · rw [e, hVi] at hbn
      rw [e]
      exact hfull bn hbn
    · rw [hV j e] at hbn
      exact h.full j bn hbn
  · intro j hj hne
    rw [hV j fun e => hne (congrArg some e.symm)]
    exact h.clean j hj hne

theorem Consistent.storeData {bn : ℕ} {v : Block} (h : Consistent D s V)
    (hb : fileBlock s.blk (V i) bn ≠ 0) (hsb : s'.sb = s.sb) (htab : s'.itable = s.itable)
    (hblk : s'.blk = update s.blk (fileBlock s.blk (V i) bn) v) :
    Consistent D s' V ∧ slots s'.blk V = slots s.blk V ∧
      (∀ c, c < s.sb.dataStart → s'.blk c = s.blk c) ∧
      ∀ j o, content s'.blk (V j) o =
        if j = i ∧ o / BSIZE = bn then v (o % BSIZE) else content s.blk (V j) o := by
  have hO := h.owned
  have hge : s.sb.dataStart ≤ fileBlock s.blk (V i) bn := (hO.slots.range (i := i) hb).1
  have hslots : slots s'.blk V = slots s.blk V := by
    rw [hblk]
    exact hO.slots.write (i := i) rfl (fileSlot_ne bn)
  have hlow : ∀ c, c < s.sb.dataStart → s'.blk c = s.blk c := fun c hc => by
    rw [hblk, update_of_ne (by omega)]
  have hds : s.sb.bmapstart < s.sb.dataStart := Superblock.bmapstart_lt_dataStart
  refine ⟨h.of_slots hsb htab hslots (fun c hc => inUse_congr (hlow _ (Superblock.BBLOCK_lt hc)))
    fun j hj hne => ?_, hslots, hlow, fun j o => ?_⟩
  · have := hO.layout.IBLOCK_lt hj
    rw [dinode_congr (hlow _ (by omega))]
    exact h.clean j hj hne
  · unfold content byteAt
    rw [fileBlock_of_slots hslots]
    by_cases e : j = i ∧ o / BSIZE = bn
    · obtain ⟨rfl, rfl⟩ := e
      rw [if_neg hb, if_neg hb, if_pos ⟨rfl, rfl⟩, hblk, update_self]
    · rw [if_neg e]
      split_ifs with h0
      · rfl
      · rw [hblk, update_of_ne]
        intro e'
        obtain ⟨rfl, hslot⟩ := hO.slots.inj (i := j) h0 e'
        exact e ⟨rfl, fileSlot_inj hslot⟩

/-- `iupdate` brings the inode on the disk up to date. -/
theorem iupdate_spec (hE : Allows E) (h : Consistent (some (s.itable ip).inum) s V)
    (hl : (s.itable ip).locked = true) :
    Spec (iupdate ip) s (fun _ s' => Consistent none s' V ∧ Changes s s' ∧ s'.itable = s.itable ∧
      s'.blk = setDinode s.sb s.blk (s.itable ip).inum (V (s.itable ip).inum) ∧
      (∀ c, c ∈ s'.log.lh ↔ c = s.sb.IBLOCK (s.itable ip).inum ∨ c ∈ s.log.lh) ∧
      ∀ j o, content s'.blk (V j) o = content s.blk (V j) o) E := by
  unfold iupdate
  rw [spec_get_bind]
  rw [spec_bind, h.table.held hl]
  refine spec_store_logWrite hE Superblock.inodestart_le_IBLOCK fun s' hch hblk htab hlh => ?_
  set i := (s.itable ip).inum with hi
  have hO := h.owned
  have hbound : i < s.sb.ninodes := h.table.bound ip (h.table.locked ip hl).1
  have hIB := hO.layout.IBLOCK_lt hbound
  have hds : s.sb.bmapstart < s.sb.dataStart := Superblock.bmapstart_lt_dataStart
  have hdata : ∀ c, s.sb.bmapstart ≤ c → s'.blk c = s.blk c := fun c hc => by
    rw [hblk, update_of_ne (by omega)]
  have hslots : slots s'.blk V = slots s.blk V :=
    slots_of_data hO.slots fun c hc => hdata c (by omega)
  have hset : s'.blk = setDinode s.sb s.blk i (V i) := hblk
  refine ⟨h.of_slots hch.sb htab hslots
    (fun c _ => inUse_congr (hdata _ Superblock.bmapstart_le_BBLOCK)) fun j hj _ => ?_, hch, htab,
    hset, hlh, content_of_data hO.slots fun c hc => hdata c (by omega)⟩
  rw [hset]
  by_cases e : j = i
  · rw [e]
    exact dinode_setDinode_self (hO.fits i)
  · rw [dinode_setDinode_of_ne e]
    exact h.clean j hj fun e' => e (Option.some.inj e').symm

/-- Change an inode in the table and on the disk, except for its blocks. -/
structure Updates (ip : Ip) (x : Dinode) (s : State) (V : ℕ → Dinode) (s' : State) : Prop where
  rep : Consistent none s' (update V (s.itable ip).inum x)
  changes : Changes s s'
  itable : s'.itable = update s.itable ip { s.itable ip with din := x }
  blk : s'.blk = setDinode s.sb s.blk (s.itable ip).inum x
  lh : ∀ c, c ∈ s'.log.lh ↔ c = s.sb.IBLOCK (s.itable ip).inum ∨ c ∈ s.log.lh
  content : ∀ j o, content s'.blk (update V (s.itable ip).inum x j) o = content s.blk (V j) o

theorem setDin_iupdate_spec {g : Dinode → Dinode} (hE : Allows E)
    (h : Consistent (some (s.itable ip).inum) s V) (hl : (s.itable ip).locked = true)
    (hx : g (V (s.itable ip).inum) = x) (haddrs : x.addrs = (V (s.itable ip).inum).addrs)
    (hfits : x.Fits) (htype : x.type ≠ 0)
    (hfull : ∀ bn, bn * BSIZE < x.size → fileBlock s.blk (V (s.itable ip).inum) bn ≠ 0) :
    Spec (setDin ip g) s (fun _ s1 => Spec (iupdate ip) s1 (fun _ s' => Updates ip x s V s') E)
      E := by
  have hrep := h.setHead hl haddrs hfits htype hfull
  unfold setDin setInode
  simp only [spec_bind, spec_get, spec_modify]
  rw [h.table.held hl, hx]
  set s1 : State := { s with
    itable := update s.itable ip { s.itable ip with din := x } } with hs1
  have hent : s1.itable ip = { s.itable ip with din := x } := update_self _ _ _
  have hi : (s1.itable ip).inum = (s.itable ip).inum := by rw [hent]
  have hrep1 : Consistent (some (s1.itable ip).inum) s1 (update V (s.itable ip).inum x) := by
    rw [hi]
    exact hrep
  refine (iupdate_spec hE hrep1 (by rwa [hent])).imp ?_
  rintro - s' ⟨hrep', hch, htab, hblk, hlh, hcont⟩
  rw [hi] at hblk hlh
  constructor
  · exact hrep'
  · exact ⟨⟨hch.sb, hch.disk, hch.trace, hch.log, hch.lh, hch.above, hch.length, hch.tables⟩,
      hch.logged⟩
  · exact htab
  · rw [hblk, update_self]
  · exact hlh
  · intro j o
    rw [hcont j o]
    exact content_setHead haddrs j o

theorem Updates.data (h : Updates ip x s V s') (hL : s.sb.Layout)
    (hi : (s.itable ip).inum < s.sb.ninodes) {c : ℕ} (hc : s.sb.bmapstart ≤ c) :
    s'.blk c = s.blk c := by
  have := hL.IBLOCK_lt hi
  rw [h.blk]
  exact setDinode_of_ne (by omega)

end Data

end TatakOS.Fs
