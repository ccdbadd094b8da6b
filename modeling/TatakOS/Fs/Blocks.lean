import TatakOS.Fs.Read

/-!
# Allocating blocks

The bitmap says which blocks are in use: those before the data area, and those in the slots of
inodes. `balloc` gives a block of zeroes that is in no slot, and `bfree` of a block in a slot does
not panic. Blocks are changed inside transactions only, and what is changed is in the log.
-/

namespace TatakOS.Fs

open Function

variable {s s' s'' : State} {E : Panic × State → Prop}

/-- Errors that say that a resource is used up, or that there is no transaction. -/
structure Allows (E : Panic × State → Prop) : Prop where
  log : ∀ e s, E (.log e, s)
  outOfBlocks : ∀ s, E (.outOfBlocks, s)

theorem Allows.all : Allows fun _ => True := ⟨fun _ _ => trivial, fun _ => trivial⟩

/-! ## The parts of the disk -/

/-- The first data block. -/
def Superblock.dataStart (sb : Superblock) : ℕ := sb.bmapstart + sb.size / BPB + 1

/-- Boot block, super block, log, inodes, bitmap and data follow each other. -/
structure Superblock.Layout (sb : Superblock) : Prop where
  log : 2 ≤ sb.logstart
  inodes : sb.logstart + sb.nlog ≤ sb.inodestart
  bitmap : sb.inodestart + sb.ninodes / IPB < sb.bmapstart
  size : sb.size < 2 ^ 32

section Layout

variable {sb : Superblock} {i b : ℕ}

theorem Superblock.Layout.IBLOCK_lt (h : sb.Layout) (hi : i < sb.ninodes) :
    sb.IBLOCK i < sb.bmapstart := by
  have := h.bitmap
  have : i / IPB ≤ sb.ninodes / IPB := Nat.div_le_div_right hi.le
  unfold Superblock.IBLOCK
  omega

theorem Superblock.BBLOCK_lt (hb : b < sb.size) : sb.BBLOCK b < sb.dataStart := by
  have : b / BPB ≤ sb.size / BPB := Nat.div_le_div_right hb.le
  unfold Superblock.BBLOCK Superblock.dataStart
  omega

theorem Superblock.bmapstart_le_BBLOCK : sb.bmapstart ≤ sb.BBLOCK b := Nat.le_add_left _ _

theorem Superblock.bmapstart_lt_dataStart : sb.bmapstart < sb.dataStart :=
  Nat.lt_succ_of_le (Nat.le_add_right _ _)

theorem Superblock.Layout.inodestart_lt_bmapstart (h : sb.Layout) : sb.inodestart < sb.bmapstart :=
  (Nat.le_add_right _ _).trans_lt h.bitmap

theorem Superblock.Layout.inodestart_lt_dataStart (h : sb.Layout) : sb.inodestart < sb.dataStart :=
  h.inodestart_lt_bmapstart.trans Superblock.bmapstart_lt_dataStart

theorem Superblock.Layout.inodestart_le_BBLOCK (h : sb.Layout) : sb.inodestart ≤ sb.BBLOCK b :=
  h.inodestart_lt_bmapstart.le.trans Superblock.bmapstart_le_BBLOCK

theorem Superblock.inodestart_le_IBLOCK : sb.inodestart ≤ sb.IBLOCK i := Nat.le_add_left _ _

end Layout

/-! ## Logged changes -/

/-- What code inside a transaction does besides its work on blocks and inodes: blocks get into the
log, and those that are new there come after it on the disk. -/
structure LogOnly (s s' : State) : Prop where
  sb : s'.sb = s.sb
  disk : s'.disk = s.disk
  trace : s'.trace = s.trace
  log : s'.log = { s.log with lh := s'.log.lh }
  lh : ∀ b ∈ s.log.lh, b ∈ s'.log.lh
  above : ∀ b ∈ s'.log.lh, b ∈ s.log.lh ∨ s.sb.inodestart ≤ b
  length : s'.log.lh.length ≤ max s.log.lh.length (s.log.size - 1)
  tables : s'.ftable = s.ftable ∧ s'.procs = s.procs ∧ s'.pipes = s.pipes

/-- The blocks that it changes are in the log. -/
structure Changes (s s' : State) : Prop extends LogOnly s s' where
  logged : ∀ b, s'.blk b ≠ s.blk b → b ∈ s'.log.lh

theorem Changes.refl (s : State) : Changes s s :=
  ⟨⟨rfl, rfl, rfl, rfl, fun _ h => h, fun _ h => .inl h, le_max_left _ _, rfl, rfl, rfl⟩,
    fun _ h => absurd rfl h⟩

theorem LogOnly.trans (h : LogOnly s s') (h' : LogOnly s' s'') : LogOnly s s'' where
  sb := h'.sb.trans h.sb
  disk := h'.disk.trans h.disk
  trace := h'.trace.trans h.trace
  log := by rw [h'.log, h.log]
  lh b hb := h'.lh b (h.lh b hb)
  above b hb := by
    obtain hb | hb := h'.above b hb
    · exact h.above b hb
    · rw [h.sb] at hb
      exact .inr hb
  length := by
    have h1 := h.length
    have h2 := h'.length
    rw [show s'.log.size = s.log.size by rw [h.log]] at h2
    omega
  tables := ⟨h'.tables.1.trans h.tables.1, h'.tables.2.1.trans h.tables.2.1,
    h'.tables.2.2.trans h.tables.2.2⟩

theorem LogOnly.congr {d : ℕ → Block} {t : Ip → Inode} (h : LogOnly s s') :
    LogOnly s { s' with blk := d, itable := t } :=
  ⟨h.sb, h.disk, h.trace, h.log, h.lh, h.above, h.length, h.tables⟩

theorem Changes.trans (h : Changes s s') (h' : Changes s' s'') : Changes s s'' where
  toLogOnly := h.toLogOnly.trans h'.toLogOnly
  logged b hb := by
    by_cases e : s''.blk b = s'.blk b
    · exact h'.lh b (h.logged b (e ▸ hb))
    · exact h'.logged b e

theorem Changes.of_itable {t : Ip → Inode} (h : Changes s s') : Changes s { s' with itable := t } :=
  ⟨h.toLogOnly.congr, h.logged⟩

variable {Q : Unit → State → Prop}

/-- `log_write` puts a block into the log, or the log is full. -/
theorem spec_logWrite {b : ℕ} (hE : Allows E)
    (h : ∀ l : Logging.Log, l = { s.log with lh := l.lh } → (∀ c, c ∈ l.lh ↔ c = b ∨ c ∈ s.log.lh) →
      l.lh.length ≤ max s.log.lh.length (s.log.size - 1) → Q () { s with log := l }) :
    Spec (logWrite b) s Q E := by
  unfold logWrite
  rw [spec_get_bind]
  split
  · rw [spec_panic]
    exact hE.log _ _
  · rename_i l new hl
    rw [spec_modify]
    obtain ⟨-, hlen, -, ⟨hb, rfl, -⟩ | ⟨-, rfl, -⟩⟩ := Logging.logWrite_eq_ok hl
    · refine h _ rfl (fun c => ⟨.inr, ?_⟩) (le_max_left _ _)
      rintro (rfl | hc)
      · exact hb
      · exact hc
    · refine h _ rfl (fun c => ?_) ?_
      · rw [List.mem_append, List.mem_singleton]
        exact or_comm
      · rw [List.length_append, List.length_singleton]
        omega

theorem Changes.store {b : ℕ} {v : Block} {l : Logging.Log} (hb : s.sb.inodestart ≤ b)
    (hl : l = { s.log with lh := l.lh }) (hlh : ∀ c, c ∈ l.lh ↔ c = b ∨ c ∈ s.log.lh)
    (hlen : l.lh.length ≤ max s.log.lh.length (s.log.size - 1)) :
    Changes s { s with blk := update s.blk b v, log := l } := by
  refine ⟨⟨rfl, rfl, rfl, hl, fun c hc => (hlh c).mpr (.inr hc), fun c hc => ?_, hlen, rfl, rfl,
    rfl⟩, fun c hc => ?_⟩
  · obtain rfl | hc := (hlh c).mp hc
    · exact .inr hb
    · exact .inl hc
  · refine (hlh c).mpr (.inl ?_)
    by_contra e
    exact hc (update_of_ne e _ _)

theorem spec_store_logWrite {b : ℕ} {v : Block} (hE : Allows E) (hb : s.sb.inodestart ≤ b)
    (h : ∀ s', Changes s s' → s'.blk = update s.blk b v → s'.itable = s.itable →
      (∀ c, c ∈ s'.log.lh ↔ c = b ∨ c ∈ s.log.lh) → Q () s') :
    Spec (store b v) s (fun _ s1 => Spec (logWrite b) s1 Q E) E := by
  unfold store
  rw [spec_modify]
  exact spec_logWrite hE fun l hl hlh hlen => h _ (.store hb hl hlh hlen) rfl rfl hlh

/-! ## The bitmap -/

section Bits

variable {sb : Superblock} {d : ℕ → Block} {b c : ℕ}

theorem BBLOCK_mod_inj : sb.BBLOCK c = sb.BBLOCK b ∧ c % BPB = b % BPB ↔ c = b := by
  unfold Superblock.BBLOCK BPB BSIZE
  omega

theorem inUse_setBit : inUse sb (update d (sb.BBLOCK b)
    (setBit (d (sb.BBLOCK b)) (b % BPB))) c = (decide (c = b) || inUse sb d c) := by
  unfold inUse
  by_cases e : sb.BBLOCK c = sb.BBLOCK b
  · rw [e, update_self, bitOf_setBit]
    congr 1
    rw [decide_eq_decide]
    exact ⟨fun h => BBLOCK_mod_inj.mp ⟨e, h⟩, fun h => by rw [h]⟩
  · have hne : c ≠ b := fun h => e (by rw [h])
    rw [update_of_ne e, decide_eq_false hne, Bool.false_or]

theorem inUse_clearBit : inUse sb (update d (sb.BBLOCK b)
    (clearBit (d (sb.BBLOCK b)) (b % BPB))) c = (decide (c ≠ b) && inUse sb d c) := by
  unfold inUse
  by_cases e : sb.BBLOCK c = sb.BBLOCK b
  · rw [e, update_self, bitOf_clearBit]
    congr 1
    rw [decide_eq_decide]
    exact not_congr ⟨fun h => BBLOCK_mod_inj.mp ⟨e, h⟩, fun h => by rw [h]⟩
  · have hne : c ≠ b := fun h => e (by rw [h])
    rw [update_of_ne e, decide_eq_true hne, Bool.true_and]

theorem inUse_congr {d' : ℕ → Block} (h : d' (sb.BBLOCK c) = d (sb.BBLOCK c)) :
    inUse sb d' c = inUse sb d c := by
  unfold inUse
  rw [h]

theorem firstFree_eq_some {n : ℕ} (h : firstFree sb d n b = some c) :
    c < b + n ∧ inUse sb d c = false := by
  induction n generalizing b with
  | zero => cases h
  | succ n ih =>
    unfold firstFree at h
    split_ifs at h with hb
    · have := ih h
      exact ⟨by omega, this.2⟩
    · cases h
      exact ⟨by omega, by simpa using hb⟩

/-- The blocks in use are those before the data area and those in slots. -/
def Marked (sb : Superblock) (d : ℕ → Block) (S : ℕ → ℕ → ℕ) : Prop :=
  ∀ b < sb.size, inUse sb d b = true ↔ b < sb.dataStart ∨ ∃ i t, S i t = b

end Bits

/-! ## `balloc` and `bfree` -/

/-- What `balloc` does when it gives block `b`. -/
structure Alloc (S : ℕ → ℕ → ℕ) (s : State) (b : ℕ) (s' : State) : Prop where
  changes : Changes s s'
  itable : s'.itable = s.itable
  range : s.sb.dataStart ≤ b ∧ b < s.sb.size
  fresh : ∀ i t, S i t ≠ b
  marked : ∀ c < s.sb.size, inUse s.sb s'.blk c = (decide (c = b) || inUse s.sb s.blk c)
  zero : s'.blk b = fun _ => 0
  others : ∀ c, c ≠ b → c < s.sb.bmapstart ∨ s.sb.dataStart ≤ c → s'.blk c = s.blk c
  logged : b ∈ s'.log.lh
  lh : ∀ c ∈ s'.log.lh, c = b ∨ c < s.sb.dataStart ∨ c ∈ s.log.lh

variable {S : ℕ → ℕ → ℕ}

/-- `balloc` marks and zeroes a free block. -/
theorem balloc_spec (hE : Allows E) (hL : s.sb.Layout) (hM : Marked s.sb s.blk S) :
    Spec balloc s (Alloc S s) E := by
  unfold balloc bzero
  rw [spec_get_bind]
  split
  · rw [spec_panic]
    exact hE.outOfBlocks _
  · rename_i b hb
    obtain ⟨hlt, hfree⟩ := firstFree_eq_some hb
    rw [Nat.zero_add] at hlt
    have hnot : ¬ (b < s.sb.dataStart ∨ ∃ i t, S i t = b) := by
      rw [← hM b hlt, hfree]
      decide
    have hdata : s.sb.dataStart ≤ b := by
      by_contra hn
      exact hnot (.inl (by omega))
    have hBB : ∀ c < s.sb.size, s.sb.BBLOCK c ≠ b := fun c hc => by
      have := Superblock.BBLOCK_lt hc
      omega
    simp only [spec_bind, spec_pure]
    refine spec_store_logWrite hE hL.inodestart_le_BBLOCK fun s1 hch1 hblk1 htab1 hlog1 => ?_
    have hb1 : s1.sb.inodestart ≤ b := by
      rw [hch1.sb]
      exact hL.inodestart_lt_dataStart.le.trans hdata
    refine spec_store_logWrite hE hb1 fun s2 hch2 hblk2 htab2 hlog2 => ?_
    exact {
      changes := hch1.trans hch2
      itable := htab2.trans htab1
      range := ⟨hdata, hlt⟩
      fresh := fun i t e => hnot (.inr ⟨i, t, e⟩)
      marked := fun c hc => by
        rw [inUse_congr (d := s1.blk), hblk1, inUse_setBit]
        rw [hblk2, update_of_ne (hBB c hc)]
      zero := by rw [hblk2, update_self]
      others := fun c hc hout => by
        have hne : c ≠ s.sb.BBLOCK b := by
          have h1 := Superblock.BBLOCK_lt hlt
          have h2 : s.sb.bmapstart ≤ s.sb.BBLOCK b := Superblock.bmapstart_le_BBLOCK
          omega
        rw [hblk2, update_of_ne hc, hblk1, update_of_ne hne]
      logged := (hlog2 b).mpr (.inl rfl)
      lh := fun c hc => by
        obtain rfl | hc1 := (hlog2 c).mp hc
        · exact .inl rfl
        · obtain rfl | hc0 := (hlog1 c).mp hc1
          · exact .inr (.inl (Superblock.BBLOCK_lt hlt))
          · exact .inr (.inr hc0) }

theorem Alloc.assign {b i t : ℕ} (h : Alloc S s b s')
    (hM : Marked s.sb s.blk S) (h0 : S i t = 0) : Marked s.sb s'.blk (assign S i t b) := by
  intro c hc
  rw [h.marked c hc, Bool.or_eq_true, decide_eq_true_iff, hM c hc]
  constructor
  · rintro (rfl | hlo | ⟨j, u, hju⟩)
    · exact .inr ⟨i, t, assign_self⟩
    · exact .inl hlo
    · by_cases e : j = i ∧ u = t
      · -- the slot was empty, and block 0 is before the data area
        obtain ⟨rfl, rfl⟩ := e
        refine .inl ?_
        rw [← hju, h0]
        exact Nat.succ_pos _
      · exact .inr ⟨j, u, by rw [assign_of_ne (by tauto), hju]⟩
  · rintro (hlo | ⟨j, u, hju⟩)
    · exact .inr (.inl hlo)
    · rw [assign_eq_iff] at hju
      split_ifs at hju
      · exact .inl hju.symm
      · exact .inr (.inr ⟨j, u, hju⟩)

/-- What `bfree` of block `b` does. -/
structure Freed (s : State) (b : ℕ) (s' : State) : Prop where
  changes : Changes s s'
  itable : s'.itable = s.itable
  marked : ∀ c < s.sb.size, inUse s.sb s'.blk c = (decide (c ≠ b) && inUse s.sb s.blk c)
  others : ∀ c, c < s.sb.bmapstart ∨ s.sb.dataStart ≤ c → s'.blk c = s.blk c

/-- `bfree` finds its block marked, and clears the bit. -/
theorem bfree_spec {i t : ℕ} (hE : Allows E) (hL : s.sb.Layout) (hM : Marked s.sb s.blk S)
    (hlt : S i t < s.sb.size) : Spec (bfree (S i t)) s (fun _ s' => Freed s (S i t) s') E := by
  have huse : inUse s.sb s.blk (S i t) = true := (hM _ hlt).mpr (.inr ⟨i, t, rfl⟩)
  unfold bfree
  rw [spec_get_bind, if_pos huse, spec_bind]
  refine spec_store_logWrite hE hL.inodestart_le_BBLOCK fun s1 hch1 hblk1 htab1 _ => ?_
  refine ⟨hch1, htab1, fun c _ => ?_, fun c hout => ?_⟩
  · rw [hblk1, inUse_clearBit]
  · have h1 := Superblock.BBLOCK_lt hlt
    have h2 : s.sb.bmapstart ≤ s.sb.BBLOCK (S i t) := Superblock.bmapstart_le_BBLOCK
    rw [hblk1, update_of_ne (by omega)]

theorem Freed.clear {i t : ℕ} (h : Freed s (S i t) s')
    (hS : Slots s.sb.dataStart s.sb.size S) (hM : Marked s.sb s.blk S) (h0 : S i t ≠ 0) :
    Marked s.sb s'.blk (assign S i t 0) := by
  have hrange := hS.range h0
  intro c hc
  rw [h.marked c hc, Bool.and_eq_true, decide_eq_true_iff, hM c hc]
  constructor
  · rintro ⟨hne, hlo | ⟨j, u, hju⟩⟩
    · exact .inl hlo
    · refine .inr ⟨j, u, ?_⟩
      rw [assign_of_ne, hju]
      by_contra hn
      push Not at hn
      obtain ⟨rfl, rfl⟩ := hn
      exact hne hju.symm
  · rintro (hlo | ⟨j, u, hju⟩)
    · exact ⟨by omega, .inl hlo⟩
    · rw [assign_eq_iff] at hju
      split_ifs at hju with e
      · subst hju
        exact ⟨h0.symm, .inl (Nat.succ_pos _)⟩
      · refine ⟨fun hcb => e ?_, .inr ⟨j, u, hju⟩⟩
        rw [← hcb, ← hju] at h0
        exact hS.inj h0 (hju.trans hcb)

end TatakOS.Fs
