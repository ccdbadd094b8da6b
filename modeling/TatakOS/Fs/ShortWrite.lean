import TatakOS.Fs.WellFormed
import TatakOS.Fs.Write

/-!
# Writes that stop early

A caller of `writei` that gets `r` expects the first `r` bytes of the source in the file, the rest
of it as before, and every change in the log (`Reports`). A copy that fails inside a block breaks
this, unless what it had copied by then makes no difference (`Harmless`). Where the copy fails and
what is counted (`Mem.reach` and `Mem.counted`) depends on the mapped pages, the offset and the
length only.
-/

namespace TatakOS.Fs

open Function

variable {s s' : State} {V V' : ℕ → Dinode} {ip : Ip} {off n r z : ℕ} {src : Mem}

/-- Reading the inode in entry `k` gives the bytes `g`, of which there are `size`. -/
def Observes (s : State) (k : Ip) (size : ℕ) (g : ℕ → UInt8) : Prop :=
  ∀ p o m, o + m < 2 ^ 32 → Spec (readi k (.kernel p) o m) s
    (fun l _ => l = some ((List.range (min m (size - o))).map fun j => g (o + j))) fun _ => False

theorem observes_iff (h : Consistent none s V) (href : 0 < (s.itable ip).ref)
    (hval : (s.itable ip).valid = true) {g : ℕ → UInt8} :
    Observes s ip (V (s.itable ip).inum).size g ↔
      ∀ o < (V (s.itable ip).inum).size, content s.blk (V (s.itable ip).inum) o = g o := by
  have hsize := (h.owned.fits (s.itable ip).inum).size
  set i := (s.itable ip).inum
  constructor
  · intro hobs o ho
    obtain ⟨l, s1, -, hl, -, hl'⟩ :=
      ((hobs [] o 1 (by omega)).and (h.readi_spec (E := fun _ => False) href hval
        (Mem.takes_kernel _ _)
        (by omega))).exists_ok
    rw [hl, show min 1 ((V i).size - o) = 1 by omega] at hl'
    simpa using hl'.symm
  · intro heq p o m hm
    refine (h.readi_spec href hval (Mem.takes_kernel _ _) hm).imp ?_
    rintro l s1 ⟨-, rfl⟩
    congr 1
    refine List.map_congr_left fun j hj => ?_
    have hj' : j < min m ((V i).size - o) := List.mem_range.mp hj
    exact heq (o + j) (by omega)

/-- What the caller of `writei` that gets `r` may expect. -/
structure Reports (ip : Ip) (src : Mem) (off r : ℕ) (s s' : State) : Prop where
  size : (s'.itable ip).din.size = max (s.itable ip).din.size (off + r)
  file : Observes s' ip (max (s.itable ip).din.size (off + r)) fun o =>
    if off ≤ o ∧ o < off + r then src.byte (o - off) else content s.blk (s.itable ip).din o
  others : ∀ k, k ≠ ip → 0 < (s.itable k).ref → (s.itable k).valid = true →
    Observes s' k (s.itable k).din.size (content s.blk (s.itable k).din)
  logged : ∀ b, s'.blk b ≠ s'.disk b → b ∈ s'.log.lh

/-- The block of the file that the round after the complete ones goes to. -/
def stopBlock (ip : Ip) (src : Mem) (off n : ℕ) (s : State) : ℕ :=
  fileBlock s.blk (s.itable ip).din ((off + src.counted off n) / BSIZE)

/-- The bytes from the end of the complete rounds to the first that is not mapped make no
difference. -/
structure Harmless (ip : Ip) (src : Mem) (off n : ℕ) (s : State) : Prop where
  /-- Those before the end of the file are there already. -/
  bytes : ∀ j, src.counted off n ≤ j → j < src.reach n → off + j < (s.itable ip).din.size →
    src.byte j = content s.blk (s.itable ip).din (off + j)
  /-- Their block is missing, in the log, or has all of them already. -/
  block : stopBlock ip src off n s = 0 ∨ stopBlock ip src off n s ∈ s.log.lh ∨
    ∀ j, src.counted off n ≤ j → j < src.reach n →
      src.byte j = s.blk (stopBlock ip src off n s) ((off + j) % BSIZE)

theorem Written.size_eq (hw : Written none z ip src off n r s V s' V') :
    (V' (s.itable ip).inum).size = z := by rw [hw.head]

theorem blit_leftover_iff {v : Block} (hr : r = src.counted off n) :
    v.blit ((off + r) % BSIZE) (leftover src n r) = v ↔
    ∀ j, r ≤ j → j < src.reach n → src.byte j = v ((off + j) % BSIZE) := by
  by_cases hlt : r < n
  · have hfit := src.leftover_fits hlt hr
    have hmod : ∀ j, r ≤ j → j < src.reach n → (off + j) % BSIZE = (off + r) % BSIZE + (j - r) := by
      intro j h1 h2
      unfold BSIZE at *
      omega
    unfold Bytes.blit leftover
    rw [List.length_map, List.length_range]
    constructor
    · intro heq j h1 h2
      have hj := congrFun heq ((off + j) % BSIZE)
      rw [hmod j h1 h2, if_pos (by omega), Nat.add_sub_cancel_left, List.getD_eq_getElem?_getD,
        List.getElem?_map, List.getElem?_range (by omega), Option.map_some, Option.getD_some,
        Nat.add_sub_cancel' h1] at hj
      rw [hj, hmod j h1 h2]
    · intro hall
      funext o
      split_ifs with ho
      · have hj := hall (r + (o - (off + r) % BSIZE)) (by omega) (by omega)
        rw [hmod (r + _) (by omega) (by omega), Nat.add_sub_cancel_left, Nat.add_sub_cancel' ho.1] at hj
        rw [← hj, List.getD_eq_getElem?_getD, List.getElem?_map, List.getElem?_range (by omega)]
        rfl
      · rfl
  · have hle := src.reach_le n
    have hnil : leftover src n r = [] := by
      unfold leftover
      rw [show src.reach n - r = 0 by omega]
      rfl
    rw [hnil]
    refine ⟨fun _ j h1 h2 => by omega, fun _ => ?_⟩
    funext o
    unfold Bytes.blit
    rw [if_neg (by simp)]

section Reports

variable (h : Consistent none s V) (hl : (s.itable ip).locked = true)
  (hw : Written none (max (V (s.itable ip).inum).size (off + r)) ip src off n r s V s' V')
  (hr : r = src.counted off n)
include h hl hw

theorem observes_other {k : Ip} (hk : k ≠ ip) (href : 0 < (s.itable k).ref)
    (hval : (s.itable k).valid = true) :
    Observes s' k (s.itable k).din.size (content s.blk (s.itable k).din) := by
  have hent : s'.itable k = s.itable k := by rw [hw.itable, update_of_ne hk]
  have hne : (s.itable k).inum ≠ (s.itable ip).inum := fun e =>
    hk (h.table.unique k ip href (h.table.locked ip hl).1 e)
  have hobs := (observes_iff (g := content s.blk (s.itable k).din) hw.rep
    (by rwa [hent]) (by rwa [hent])).mpr
  rw [hent, hw.others _ hne, ← h.table.mem k href hval] at hobs
  refine hobs fun o _ => ?_
  have hcont := hw.content (s.itable k).inum o
  rwa [if_neg fun hc => hne hc.1, hw.others _ hne, ← h.table.mem k href hval] at hcont

include hr in
theorem observes_file : Observes s' ip (max (s.itable ip).din.size (off + r)) (fun o =>
      if off ≤ o ∧ o < off + r then src.byte (o - off) else content s.blk (s.itable ip).din o) ↔
    ∀ j, r ≤ j → j < src.reach n → off + j < (s.itable ip).din.size →
      src.byte j = content s.blk (s.itable ip).din (off + j) := by
  have hent := hw.entry
  have hle : r ≤ src.reach n := hr ▸ src.counted_le_reach off n
  obtain ⟨href, hval⟩ := h.table.locked ip hl
  have hobs := observes_iff (g := fun o => if off ≤ o ∧ o < off + r then src.byte (o - off)
    else content s.blk (s.itable ip).din o) hw.rep (by rwa [hent]) (by rwa [hent])
  rw [hent] at hobs
  dsimp only at hobs
  rw [hw.size_eq] at hobs
  rw [h.table.held hl] at hobs ⊢
  rw [hobs]
  set i := (s.itable ip).inum with hi
  constructor
  · intro heq j hrj hj hlt
    have h1 := heq (off + j) (by omega)
    rw [hw.content i, if_pos ⟨rfl, by omega, by omega⟩, if_neg (by omega)] at h1
    rw [← h1]
    congr 1
    omega
  · intro heq o ho
    rw [hw.content i]
    by_cases h1 : off ≤ o ∧ o < off + r
    · rw [if_pos ⟨rfl, by omega⟩, if_pos h1]
    · rw [if_neg h1]
      split_ifs with h2
      · have h3 := heq (o - off) (by omega) (by omega) (by omega)
        rwa [show off + (o - off) = o by omega] at h3
      · rfl

include hr in
theorem logged_iff (hlog : ∀ b, s.blk b ≠ s.disk b → b ∈ s.log.lh) :
    (∀ b, s'.blk b ≠ s'.disk b → b ∈ s'.log.lh) ↔
      (fileBlock s.blk (s.itable ip).din ((off + r) / BSIZE) = 0 ∨
        fileBlock s.blk (s.itable ip).din ((off + r) / BSIZE) ∈ s.log.lh ∨
        (s.blk (fileBlock s.blk (s.itable ip).din ((off + r) / BSIZE))).blit ((off + r) % BSIZE)
          (leftover src n r) = s.blk (fileBlock s.blk (s.itable ip).din ((off + r) / BSIZE))) := by
  rw [hw.disk, h.table.held hl]
  set i := (s.itable ip).inum with hi
  set b0 := fileBlock s.blk (V i) ((off + r) / BSIZE) with hb0
  -- blocks other than that of the round that failed
  have hkeep : ∀ b, (s'.blk b ≠ s.blk b → b ∈ s'.log.lh) → s'.blk b ≠ s.disk b → b ∈ s'.log.lh := by
    intro b himp hne
    by_cases e : s'.blk b = s.blk b
    · exact hw.lh b (hlog b (e ▸ hne))
    · exact himp e
  by_cases hlt : r < n
  · obtain ⟨hmap, hrest⟩ := hw.rest hlt
    by_cases h0 : b0 = 0
    · rw [if_pos h0] at hrest
      refine ⟨fun _ => .inl h0, fun _ b => hkeep b fun hne => ?_⟩
      obtain hmem | ⟨-, rfl⟩ := hw.logged b hne
      · exact hmem
      · exact hrest
    · rw [if_neg h0] at hrest
      obtain ⟨heq, hblk, hmem⟩ := hrest
      constructor
      · intro hall
        by_cases hin : b0 ∈ s.log.lh
        · exact .inr (.inl hin)
        · have hsame : s.blk b0 = s.disk b0 := by
            by_contra hne
            exact hin (hlog b0 hne)
          refine .inr (.inr ?_)
          by_contra hne
          exact hin (hmem (hall b0 (by rw [hblk, ← hsame]; exact hne)))
      · rintro (hz | hin | hsame)
        · exact absurd hz h0
        · refine fun b => hkeep b fun hne => ?_
          obtain hmem' | ⟨-, rfl⟩ := hw.logged b hne
          · exact hmem'
          · rw [heq]
            exact hw.lh _ hin
        · refine fun b => hkeep b fun hne => ?_
          obtain hmem' | ⟨-, rfl⟩ := hw.logged b hne
          · exact hmem'
          · rw [heq] at hne
            exact absurd (hblk.trans hsame) hne
  · have hle := src.reach_le n
    refine ⟨fun _ => .inr (.inr ((blit_leftover_iff hr).mpr fun j h1 h2 => by omega)),
      fun _ b => hkeep b fun hne => ?_⟩
    exact (hw.logged b hne).resolve_right fun hn => hlt hn.1

include hr in
theorem reports_iff_harmless (hlog : ∀ b, s.blk b ≠ s.disk b → b ∈ s.log.lh) :
    Reports ip src off r s s' ↔ Harmless ip src off n s := by
  have hfile := observes_file h hl hw hr
  have hlogged := logged_iff h hl hw hr hlog
  rw [blit_leftover_iff hr] at hlogged
  constructor
  · intro hrep
    have hbytes := hfile.mp hrep.file
    have hblock := hlogged.mp hrep.logged
    subst hr
    exact ⟨hbytes, hblock⟩
  · intro hharm
    have hbytes := hharm.bytes
    have hblock := hharm.block
    unfold stopBlock at hblock
    rw [← hr] at hbytes hblock
    refine ⟨?_, hfile.mpr hbytes, ?_, hlogged.mpr hblock⟩
    · rw [hw.entry, h.table.held hl]
      exact hw.size_eq
    · exact fun k hk href hval => observes_other h hl hw hk href hval

end Reports

/-- `writei` from user memory changes nothing if it returns `-1`. Otherwise it returns the bytes of
the complete rounds, and that is the whole truth exactly if the bytes of the failing copy make no
difference. -/
theorem writei_reports_iff (h : Consistent none s V) (hl : (s.itable ip).locked = true)
    (hlog : ∀ b, s.blk b ≠ s.disk b → b ∈ s.log.lh) (um : UserMem) (va off n : ℕ) :
    Spec (writei ip (.user um va) off n) s (fun r s' => match r with
      | none => s' = s
      | some r => r = (Mem.user um va).counted off n ∧
        (Reports ip (.user um va) off r s s' ↔ Harmless ip (.user um va) off n s))
      fun e => e.1 = .outOfBlocks ∨ ∃ p, e.1 = .log p := by
  have hsrc : (Mem.user um va).Holds n := trivial
  refine (writei_spec ⟨fun p _ => .inr ⟨p, rfl⟩, fun _ => .inl rfl⟩ h hl hsrc).imp ?_
  intro r s' hr
  cases r with
  | none => exact hr.1
  | some r =>
    obtain ⟨hr, V', hw⟩ := hr
    exact ⟨hr, reports_iff_harmless h hl hw hr hlog⟩

/-! ## A file that changes although nothing is reported -/

section Example

open Mkfs

section Files

variable {L : List ℕ} {k : ℕ} {data : ℕ → Block} {i : ℕ} {locked : Bool}

/-- A disk with the inodes in `L` and `k` blocks in use. -/
def diskOf (V : ℕ → Dinode) (data : ℕ → Block) (k : ℕ) : List ℕ → ℕ → Block
  | [] => update data sb.bmapstart (usedBits (nmeta + k))
  | i :: L => setDinode sb (diskOf V data k L) i (V i)

/-- The state after a boot, in a transaction, with inode `i` in the first entry of the table. -/
def stateOf (V : ℕ → Dinode) (d : ℕ → Block) (i : ℕ) (locked : Bool) : State where
  sb := sb
  blk := d
  disk := d
  log := { size := nlog, outstanding := 1 }
  itable ip := if ip.val = 0 then
    { inum := i, ref := 1, locked := locked, valid := true, din := V i } else {}

/-- The inodes in `L` have a block each, or none; these are the first `k` data blocks. -/
structure SmallFiles (V : ℕ → Dinode) (data : ℕ → Block) (k : ℕ) (L : List ℕ) : Prop where
  bound : k ≤ NDIRECT ∧ ∀ i ∈ L, i < sb.ninodes
  typed : ∀ i ∈ L, (V i).type ≠ 0
  rest : ∀ i ∉ L, V i = {}
  head : ∀ i ∈ L, (V i).type < 2 ^ 16 ∧ (V i).major < 2 ^ 16 ∧ (V i).minor < 2 ^ 16 ∧
    (V i).nlink < 2 ^ 16 ∧ (V i).size ≤ if (V i).addrs 0 = 0 then 0 else BSIZE
  addrs : ∀ i ∈ L, ∀ t ≠ 0, (V i).addrs t = 0
  range : ∀ i ∈ L, (V i).addrs 0 ≠ 0 → nmeta ≤ (V i).addrs 0 ∧ (V i).addrs 0 < nmeta + k
  inj : ∀ i ∈ L, ∀ j ∈ L, (V i).addrs 0 ≠ 0 → (V i).addrs 0 = (V j).addrs 0 → i = j
  surj : ∀ b < k, ∃ i ∈ L, (V i).addrs 0 = nmeta + b
  data : ∀ b < nmeta, data b = fun _ => 0

theorem diskOf_of_ne {b : ℕ} (hb : ∀ i ∈ L, b ≠ sb.IBLOCK i) :
    diskOf V data k L b = update data sb.bmapstart (usedBits (nmeta + k)) b := by
  induction L with
  | nil => rfl
  | cons i L ih =>
    rw [diskOf, setDinode_of_ne (hb i List.mem_cons_self)]
    exact ih fun j hj => hb j (List.mem_cons_of_mem _ hj)

section

variable (h : SmallFiles V data k L)
include h

theorem SmallFiles.slots (d : ℕ → Block) (j t : ℕ) :
    slots d V j t = if j ∈ L ∧ t = 0 then (V j).addrs 0 else 0 := by
  unfold Fs.slots slot
  by_cases hj : j ∈ L
  · have hind := h.addrs j hj NDIRECT (by decide)
    by_cases e : t = 0
    · subst e
      simp [hj]
    · simp [hj, e, hind, h.addrs j hj t e]
  · simp [hj, h.rest j hj]

theorem SmallFiles.fits (j : ℕ) : (V j).Fits := by
  by_cases hj : j ∈ L
  · obtain ⟨h1, h2, h3, h4, h5⟩ := h.head j hj
    have hsize : (V j).size < 2 ^ 32 := h5.trans_lt (by split_ifs <;> decide)
    refine ⟨h1, h2, h3, h4, hsize, fun t => ?_, fun t ht => h.addrs j hj t (by omega)⟩
    have hmeta : nmeta + NDIRECT < 2 ^ 32 := by decide
    have := h.bound.1
    by_cases e : t = 0
    · subst e
      by_cases e0 : (V j).addrs 0 = 0
      · omega
      · have := h.range j hj e0
        omega
    · rw [h.addrs j hj t e]
      exact Nat.two_pow_pos 32
  · rw [h.rest j hj]
    exact ⟨by decide, by decide, by decide, by decide, by decide, fun _ => Nat.two_pow_pos 32,
      fun _ _ => rfl⟩

theorem SmallFiles.dinode (hi : i < sb.ninodes) : dinode sb (diskOf V data k L) i = V i := by
  have hL : sb.Layout := ⟨by decide, by decide, by decide, by decide⟩
  have key : ∀ L' ⊆ L, i ∈ L' ∨ V i = {} → Fs.dinode sb (diskOf V data k L') i = V i := by
    intro L'
    induction L' with
    | nil =>
      rintro - (h0 | h0)
      · cases h0
      · have hlt := hL.IBLOCK_lt hi
        rw [h0]
        refine dinode_zero ((update_of_ne hlt.ne _ _).trans (h.data _ ?_))
        exact hlt.trans (by decide)
    | cons j L' ih =>
      intro hsub hor
      by_cases e : i = j
      · rw [diskOf, e, dinode_setDinode_self (h.fits j)]
      · rw [diskOf, dinode_setDinode_of_ne e]
        exact ih (fun x hx => hsub (List.mem_cons_of_mem _ hx)) (hor.imp_left fun hm =>
          (List.mem_cons.mp hm).resolve_left e)
  refine key L (fun _ hx => hx) ?_
  by_cases hiL : i ∈ L
  · exact .inl hiL
  · exact .inr (h.rest i hiL)

theorem SmallFiles.owned : Owned sb (diskOf V data k L) V := by
  have hL : sb.Layout := ⟨by decide, by decide, by decide, by decide⟩
  have hstart : sb.dataStart = nmeta ∧ 0 < nmeta ∧ nmeta + NDIRECT ≤ sb.size := by decide
  have hslots := h.slots (diskOf V data k L)
  have hk := h.bound.1
  refine ⟨hL, ⟨fun {j t j' t'} h0 he => ?_, fun {j t} h0 => ?_⟩, fun b hb => ?_, h.fits,
    fun j hj t => ?_, fun j hj => ?_⟩
  · rw [hslots] at h0 he
    rw [hslots] at he
    split_ifs at h0 he with h1 h2
    · exact ⟨h.inj j h1.1 j' h2.1 h0 he, h1.2.trans h2.2.symm⟩
    · exact absurd he h0
    · exact absurd rfl h0
    · exact absurd rfl h0
  · rw [hslots] at h0 ⊢
    split_ifs at h0 ⊢ with h1
    · have := h.range j h1.1 h0
      omega
    · exact absurd rfl h0
  · have hb' : b < BPB := hb.trans (by decide)
    have hBB : sb.BBLOCK b = sb.bmapstart := by
      unfold Superblock.BBLOCK
      rw [Nat.div_eq_of_lt hb', Nat.zero_add]
    unfold inUse
    rw [hBB, diskOf_of_ne fun i hi => (hL.IBLOCK_lt (h.bound.2 i hi)).ne', update_self, bitOf_usedBits,
      Nat.mod_eq_of_lt hb', decide_eq_true_iff]
    constructor
    · intro hlt
      by_cases e : b < sb.dataStart
      · exact .inl e
      · obtain ⟨i, hi, he⟩ := h.surj (b - nmeta) (by omega)
        refine .inr ⟨i, 0, ?_⟩
        rw [hslots, if_pos ⟨hi, rfl⟩, he]
        omega
    · rintro (hlt | ⟨j, t, rfl⟩)
      · omega
      · rw [hslots]
        split_ifs with h1
        · by_cases e0 : (V j).addrs 0 = 0
          · omega
          · exact (h.range j h1.1 e0).2
        · omega
  · have hno : j ∉ L := fun hm => h.typed j hm hj
    exact (hslots j t).trans (if_neg fun hm => hno hm.1)
  · rw [h.rest j fun hm => absurd (h.bound.2 j hm) hj.not_gt]

theorem SmallFiles.consistent (hi : i ∈ L) :
    Consistent none (stateOf V (diskOf V data k L) i locked) V := by
  have hone : ∀ ip, 0 < ((stateOf V (diskOf V data k L) i locked).itable ip).ref ∨
      ((stateOf V (diskOf V data k L) i locked).itable ip).locked = true → ip.val = 0 ∧
      (stateOf V (diskOf V data k L) i locked).itable ip =
        { inum := i, ref := 1, locked := locked, valid := true, din := V i } := by
    intro ip hip
    by_cases h0 : ip.val = 0
    · exact ⟨h0, if_pos h0⟩
    · simp [stateOf, h0] at hip
  refine ⟨⟨fun ip hip => ?_, fun ip jp hip hjp _ => ?_, fun ip hip _ => ?_, fun ip hip _ => ?_,
    fun ip hip => ?_⟩, h.owned, fun j bn hbn => ?_, fun j hj _ => h.dinode hj⟩
  · rw [(hone ip (.inl hip)).2]
    exact h.bound.2 i hi
  · exact Fin.ext ((hone ip (.inl hip)).1.trans (hone jp (.inl hjp)).1.symm)
  · rw [(hone ip (.inl hip)).2]
  · rw [(hone ip (.inl hip)).2]
    exact h.typed i hi
  · rw [(hone ip (.inr hip)).2]
    exact ⟨Int.zero_lt_one, rfl⟩
  · have hj : j ∈ L := by
      by_contra hno
      rw [h.rest j hno] at hbn
      exact absurd hbn (Nat.not_lt_zero _)
    have hsize := (h.head j hj).2.2.2.2
    have h0 : (V j).addrs 0 ≠ 0 := by
      intro e
      rw [if_pos e] at hsize
      omega
    rw [if_neg h0] at hsize
    obtain rfl : bn = 0 := by
      unfold BSIZE at *
      omega
    show Fs.slots _ V j (fileSlot 0) ≠ 0
    rwa [h.slots, if_pos ⟨hj, rfl⟩]

end

end Files

/-- A file of two bytes. -/
def twoBytes : Dinode where
  type := T_FILE
  nlink := 1
  size := 2
  addrs := update (fun _ => 0) 0 nmeta

def twoBytesInodes : ℕ → Dinode := update (fun _ => {}) 2 twoBytes

/-- The file is locked, in a transaction. -/
def twoBytesState : State :=
  stateOf twoBytesInodes (diskOf twoBytesInodes (fun _ _ => 0) 1 [2]) 2 true

/-- One page is mapped. -/
def onePage : UserMem := fun p => if p = 0 then some fun _ => 1 else none

theorem twoBytesState_consistent : Consistent none twoBytesState twoBytesInodes := by
  refine SmallFiles.consistent ⟨by decide, by decide, fun i hi => ?_, by decide, ?_, by decide,
    by decide, by decide, fun _ _ => rfl⟩ List.mem_cons_self
  · exact update_of_ne (by simpa using hi) ..
  · intro i hi t ht
    obtain rfl := List.mem_singleton.mp hi
    simp [twoBytesInodes, twoBytes, ht]

/-- The same, with other bytes in the page. -/
def zeroPage : UserMem := fun p => if p = 0 then some fun _ => 0 else none

/-- The second byte is not mapped, and the first is the one that is there already: `writei` returns
0, and the file is as before. -/
theorem writei_reports_iff_twoBytes : ∃ s',
    writei ⟨0, by decide⟩ (.user zeroPage 4095) 0 2 twoBytesState = .ok (some 0, s') ∧
    (Mem.user zeroPage 4095).counted 0 2 = 0 ∧ (Mem.user zeroPage 4095).reach 2 = 1 ∧
    Reports ⟨0, by decide⟩ (.user zeroPage 4095) 0 0 twoBytesState s' := by
  have hrun : ∃ s', writei ⟨0, by decide⟩ (.user zeroPage 4095) 0 2 twoBytesState =
    .ok (some 0, s') := ⟨_, rfl⟩
  obtain ⟨s', hs'⟩ := hrun
  obtain ⟨hr, hiff⟩ := (writei_reports_iff twoBytesState_consistent rfl
    (fun _ h => absurd rfl h) zeroPage 4095 0 2).of_ok hs'
  have hreach : (Mem.user zeroPage 4095).reach 2 = 1 := by decide
  refine ⟨s', hs', hr.symm, hreach, hiff.mpr ⟨fun j _ hj _ => ?_, .inr (.inr fun j _ hj => ?_)⟩⟩
  all_goals
    obtain rfl : j = 0 := by omega
    decide

/-- The second byte is not mapped: `writei` returns 0, and the first byte of the file is new. -/
theorem writei_unreported : ∃ s', writei ⟨0, by decide⟩ (.user onePage 4095) 0 2 twoBytesState =
      .ok (some 0, s') ∧
    ¬ Reports ⟨0, by decide⟩ (.user onePage 4095) 0 0 twoBytesState s' := by
  have hrun : ∃ s', writei ⟨0, by decide⟩ (.user onePage 4095) 0 2 twoBytesState =
    .ok (some 0, s') := ⟨_, rfl⟩
  obtain ⟨s', hs'⟩ := hrun
  refine ⟨s', hs', ?_⟩
  have hsrc : (Mem.user onePage 4095).Holds 2 := trivial
  obtain ⟨hr, V', hw⟩ := (writei_spec .all twoBytesState_consistent rfl hsrc).of_ok hs'
  rw [reports_iff_harmless twoBytesState_consistent rfl hw hr fun _ h => absurd rfl h]
  intro hharm
  exact absurd (hharm.bytes 0 (by decide) (by decide) (by decide)) (by decide)

end Example

end TatakOS.Fs
