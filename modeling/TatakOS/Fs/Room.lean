import Mathlib.Data.Finset.Card
import Mathlib.Data.Finset.Range
import TatakOS.Fs.Write

/-!
# Enough blocks, and enough room in the log

`writei` needs a free block for each block that is missing, one more for a missing indirect block,
and an entry of the log for each block that it changes and that is not there yet: the blocks of the
data (`unlogged`), the block of the inode, the bitmap if it allocates, and the indirect block if an
address goes into it (`logLoad`).
-/

namespace TatakOS.Fs

open Function

variable {s s' s1 s2 : State} {V V' V1 V2 : ℕ → Dinode} {ip : Ip} {b off m n tot : ℕ}

/-! ## What the log may have to hold -/

/-- What `log_write` makes of the header. -/
def logAdd (lh : List ℕ) (b : ℕ) : List ℕ := if b ∈ lh then lh else lh ++ [b]

theorem mem_logAdd {lh : List ℕ} {c : ℕ} : c ∈ logAdd lh b ↔ c = b ∨ c ∈ lh := by
  unfold logAdd
  split_ifs with h
  · refine ⟨.inr, ?_⟩
    rintro (rfl | hc)
    · exact h
    · exact hc
  · rw [List.mem_append, List.mem_singleton, or_comm]

/-- The length of the header once the blocks of `X` are in it. -/
def load (X : Finset ℕ) (lh : List ℕ) : ℕ := lh.length + (X.filter (· ∉ lh)).card

section Load

variable {X : Finset ℕ} {lh : List ℕ}

theorem length_le_load : lh.length ≤ load X lh := Nat.le_add_right _ _

theorem load_logAdd_of_mem (h : b ∈ X) : load X (logAdd lh b) = load X lh := by
  unfold load
  by_cases hb : b ∈ lh
  · rw [show logAdd lh b = lh from if_pos hb]
  · have hsplit : X.filter (· ∉ lh) = insert b (X.filter (· ∉ logAdd lh b)) := by
      ext c
      simp only [Finset.mem_filter, Finset.mem_insert, mem_logAdd]
      constructor
      · rintro ⟨h1, h2⟩
        by_cases e : c = b
        · exact .inl e
        · exact .inr ⟨h1, fun h => h.elim e h2⟩
      · rintro (rfl | ⟨h1, h2⟩)
        · exact ⟨h, hb⟩
        · exact ⟨h1, fun h => h2 (.inr h)⟩
    have hlen : (logAdd lh b).length = lh.length + 1 := by
      unfold logAdd
      rw [if_neg hb, List.length_append, List.length_singleton]
    rw [hsplit, Finset.card_insert_of_notMem, hlen]
    · omega
    · intro h'
      exact (Finset.mem_filter.mp h').2 (mem_logAdd.mpr (.inl rfl))

theorem load_logAdd_le : load X (logAdd lh b) ≤ load X lh + if b ∈ lh then 0 else 1 := by
  unfold load logAdd
  split_ifs with h
  · exact le_rfl
  · have hsub : (X.filter (· ∉ lh ++ [b])).card ≤ (X.filter (· ∉ lh)).card := by
      refine Finset.card_le_card fun c hc => ?_
      rw [Finset.mem_filter] at hc ⊢
      exact ⟨hc.1, fun h' => hc.2 (List.mem_append_left _ h')⟩
    rw [List.length_append, List.length_singleton]
    omega

end Load

/-- How many blocks the log takes. -/
def capacity (l : Logging.Log) : ℕ := min Logging.LOGSIZE (l.size - 1)

variable {E : Panic × State → Prop} {Q : Unit → State → Prop}

theorem spec_logWrite_room
    (hopen : 0 < s.log.outstanding) (hroom : s.log.lh.length < capacity s.log)
    (h : Q () { s with log := { s.log with lh := logAdd s.log.lh b } }) :
    Spec (logWrite b) s Q E := by
  unfold capacity at hroom
  have hok : ∃ new, Logging.logWrite s.log b =
      .ok ({ s.log with lh := logAdd s.log.lh b }, new) := by
    unfold Logging.logWrite logAdd
    rw [if_neg (by omega), if_neg (by omega)]
    split_ifs with hb
    · exact ⟨_, rfl⟩
    · exact ⟨_, rfl⟩
  obtain ⟨new, hnew⟩ := hok
  unfold logWrite
  rw [spec_get_bind, hnew]
  dsimp only
  rw [spec_modify]
  exact h

theorem spec_store_logWrite_room {v : Block}
    (hopen : 0 < s.log.outstanding) (hroom : s.log.lh.length < capacity s.log)
    (h : ∀ s', (s.sb.inodestart ≤ b → Changes s s') → s'.blk = update s.blk b v →
      s'.itable = s.itable → s'.log = { s.log with lh := logAdd s.log.lh b } → Q () s') :
    Spec (store b v) s (fun _ s1 => Spec (logWrite b) s1 Q E) E := by
  unfold store
  rw [spec_modify]
  apply spec_logWrite_room
  · exact hopen
  · exact hroom
  · refine h _ (fun hb => .store hb rfl (fun _ => mem_logAdd) ?_) rfl rfl rfl
    show (logAdd s.log.lh b).length ≤ _
    unfold capacity at hroom
    unfold logAdd
    split_ifs
    · exact le_max_left _ _
    · rw [List.length_append, List.length_singleton]
      omega

/-! ## Free blocks -/

def freeBlocks (s : State) : ℕ :=
  ((Finset.range s.sb.size).filter fun b => inUse s.sb s.blk b = false).card

theorem freeBlocks_congr (hsb : s'.sb = s.sb)
    (h : ∀ c < s.sb.size, inUse s.sb s'.blk c = inUse s.sb s.blk c) :
    freeBlocks s' = freeBlocks s := by
  unfold freeBlocks
  rw [hsb]
  refine congrArg Finset.card (Finset.filter_congr fun c hc => ?_)
  rw [h c (Finset.mem_range.mp hc)]

theorem freeBlocks_mark (hsb : s'.sb = s.sb) (hb : b < s.sb.size)
    (hfree : inUse s.sb s.blk b = false)
    (h : ∀ c < s.sb.size, inUse s.sb s'.blk c = (decide (c = b) || inUse s.sb s.blk c)) :
    freeBlocks s = freeBlocks s' + 1 := by
  unfold freeBlocks
  rw [hsb]
  have hsplit : (Finset.range s.sb.size).filter (fun c => inUse s.sb s.blk c = false) =
      insert b ((Finset.range s.sb.size).filter fun c => inUse s.sb s'.blk c = false) := by
    ext c
    simp only [Finset.mem_filter, Finset.mem_insert, Finset.mem_range]
    constructor
    · rintro ⟨h1, h2⟩
      by_cases e : c = b
      · exact .inl e
      · refine .inr ⟨h1, ?_⟩
        rw [h c h1, decide_eq_false e, Bool.false_or]
        exact h2
    · rintro (rfl | ⟨h1, h2⟩)
      · exact ⟨hb, hfree⟩
      · rw [h c h1, Bool.or_eq_false_iff] at h2
        exact ⟨h1, h2.2⟩
  rw [hsplit, Finset.card_insert_of_notMem]
  intro h'
  have h2 := (Finset.mem_filter.mp h').2
  rw [h b hb, decide_eq_true rfl, Bool.true_or] at h2
  cases h2

theorem firstFree_eq_none {sb : Superblock} {d : ℕ → Block} {k c : ℕ}
    (h : firstFree sb d k b = none) (h1 : b ≤ c) (h2 : c < b + k) : inUse sb d c = true := by
  induction k generalizing b with
  | zero => omega
  | succ k ih =>
    unfold firstFree at h
    split_ifs at h with hb
    by_cases e : c = b
    · rw [e]
      exact hb
    · exact ih h (by omega) (by omega)

theorem exists_firstFree (h : 0 < freeBlocks s) : ∃ b, firstFree s.sb s.blk s.sb.size 0 = some b := by
  obtain ⟨c, hc⟩ := Finset.card_pos.mp h
  rw [Finset.mem_filter, Finset.mem_range] at hc
  cases hf : firstFree s.sb s.blk s.sb.size 0 with
  | some b => exact ⟨b, rfl⟩
  | none =>
    have := firstFree_eq_none hf (Nat.zero_le c) (by omega)
    rw [hc.2] at this
    cases this

/-! ## The budget of `writei` -/

/-- What a call changes besides data and the block of the inode: the bitmap, and the indirect
block. -/
structure Needs where
  bitmap : Bool
  indirect : Bool
  deriving DecidableEq, Repr

/-- The block of the inode, and the bitmap if it changes. -/
def metaBlocks (sb : Superblock) (inum : ℕ) (bitmap : Bool) : Finset ℕ :=
  insert (sb.IBLOCK inum)
    (if bitmap then (Finset.range (sb.size / BPB + 1)).image (· + sb.bmapstart) else ∅)

variable {inum : ℕ} {bitmap : Bool} {w : Needs}

theorem BBLOCK_mem_metaBlocks {sb : Superblock} (hw : bitmap = true) (hb : b < sb.size) :
    sb.BBLOCK b ∈ metaBlocks sb inum bitmap := by
  unfold metaBlocks
  rw [if_pos hw]
  refine Finset.mem_insert_of_mem (Finset.mem_image.mpr ⟨b / BPB, ?_, rfl⟩)
  exact Finset.mem_range.mpr (Nat.lt_succ_of_le (Nat.div_le_div_right hb.le))

/-- The length of the header once the blocks other than data are in it. -/
def logLoad (s : State) (ip : Ip) (w : Needs) : ℕ :=
  load (metaBlocks s.sb (s.itable ip).inum w.bitmap) s.log.lh +
    if w.indirect = false ∨ (s.itable ip).din.addrs NDIRECT ≠ 0 ∧
      (s.itable ip).din.addrs NDIRECT ∈ s.log.lh then 0 else 1

theorem logLoad_eq {i a : ℕ} (hi : (s.itable ip).inum = i)
    (ha : (s.itable ip).din.addrs NDIRECT = a) : logLoad s ip w =
      load (metaBlocks s.sb i w.bitmap) s.log.lh +
        if w.indirect = false ∨ a ≠ 0 ∧ a ∈ s.log.lh then 0 else 1 := by
  subst hi ha
  rfl

/-- There is room in the log for `k` data blocks. -/
structure Budget (ip : Ip) (w : Needs) (k : ℕ) (s : State) : Prop where
  trans : 0 < s.log.outstanding
  log : logLoad s ip w + k < capacity s.log

theorem Budget.spend {d k : ℕ} (h : Budget ip w (d + k) s)
    (hlog : s'.log = { s.log with lh := s'.log.lh })
    (hload : logLoad s' ip w ≤ logLoad s ip w + d) : Budget ip w k s' where
  trans := by
    rw [hlog]
    exact h.trans
  log := by
    have hcap : capacity s'.log = capacity s.log := by
      rw [hlog]
      rfl
    have := h.log
    omega

theorem Budget.mono {k k' : ℕ} (h : Budget ip w k s) (hk : k' ≤ k) : Budget ip w k' s :=
  ⟨h.trans, lt_of_le_of_lt (Nat.add_le_add_left hk _) h.log⟩

theorem Budget.length_lt {k : ℕ} (h : Budget ip w k s) : s.log.lh.length < capacity s.log := by
  have h1 := h.log
  have h2 : s.log.lh.length ≤ load (metaBlocks s.sb (s.itable ip).inum w.bitmap) s.log.lh :=
    length_le_load
  unfold logLoad at h1
  omega

/-- The header after `balloc` of block `b`. -/
def ballocLog (sb : Superblock) (lh : List ℕ) (b : ℕ) : List ℕ := logAdd (logAdd lh (sb.BBLOCK b)) b

theorem load_ballocLog_le {lh : List ℕ} (hw : bitmap = true) (hb : b < s.sb.size) :
    load (metaBlocks s.sb inum bitmap) (ballocLog s.sb lh b) ≤
      load (metaBlocks s.sb inum bitmap) lh + 1 := by
  have h1 : load (metaBlocks s.sb inum bitmap) (logAdd lh (s.sb.BBLOCK b)) =
    load (metaBlocks s.sb inum bitmap) lh := load_logAdd_of_mem (BBLOCK_mem_metaBlocks hw hb)
  have h2 : load (metaBlocks s.sb inum bitmap) (ballocLog s.sb lh b) ≤
    load (metaBlocks s.sb inum bitmap) (logAdd lh (s.sb.BBLOCK b)) + _ := load_logAdd_le
  split_ifs at h2 <;> omega

section

variable (hw : bitmap = true) (hopen : 0 < s.log.outstanding)
  (hroom : load (metaBlocks s.sb inum bitmap) s.log.lh < capacity s.log)
  (hfree : 0 < freeBlocks s)
include hw hopen hroom hfree

/-- With a free block and room in the log, `balloc` does not panic. -/
theorem balloc_room :
    Spec balloc s (fun b s' => s'.log.lh = ballocLog s.sb s.log.lh b) fun _ => False := by
  obtain ⟨b, hb⟩ := exists_firstFree hfree
  have hlt : b < s.sb.size := by
    have := (firstFree_eq_some hb).1
    omega
  have hlen1 : s.log.lh.length ≤ load (metaBlocks s.sb inum bitmap) s.log.lh := length_le_load
  have hlen2 : (logAdd s.log.lh (s.sb.BBLOCK b)).length ≤
    load (metaBlocks s.sb inum bitmap) (logAdd s.log.lh (s.sb.BBLOCK b)) := length_le_load
  rw [load_logAdd_of_mem (BBLOCK_mem_metaBlocks hw hlt)] at hlen2
  unfold balloc bzero
  rw [spec_get_bind, hb]
  simp only [spec_bind, spec_pure]
  refine spec_store_logWrite_room hopen (by omega) fun s1 _ _ _ hlog1 => ?_
  have hopen1 : 0 < s1.log.outstanding := by
    rw [hlog1]
    exact hopen
  have hcap1 : capacity s1.log = capacity s.log := by
    rw [hlog1]
    rfl
  have hlh1 : s1.log.lh = logAdd s.log.lh (s.sb.BBLOCK b) := by rw [hlog1]
  refine spec_store_logWrite_room hopen1 (by rw [hlh1]; omega) fun s2 _ _ _ hlog2 => ?_
  rw [hlog2]
  unfold ballocLog
  rw [← hlh1]

theorem balloc_total {S : ℕ → ℕ → ℕ} (hL : s.sb.Layout) (hM : Marked s.sb s.blk S) :
    Spec balloc s (fun b s' => Alloc S s b s' ∧ freeBlocks s = freeBlocks s' + 1 ∧
      load (metaBlocks s.sb inum bitmap) s'.log.lh ≤
        load (metaBlocks s.sb inum bitmap) s.log.lh + 1) fun _ => False := by
  refine ((balloc_room hw hopen hroom hfree).and (balloc_spec .all hL hM)).imp ?_
  rintro b s' ⟨hlh, ha⟩
  have hfree : inUse s.sb s.blk b = false := by
    rw [← Bool.not_eq_true, hM b ha.range.2]
    rintro (hlt | ⟨i, t, e⟩)
    · have := ha.range.1
      omega
    · exact ha.fresh i t e
  refine ⟨ha, freeBlocks_mark ha.changes.sb ha.range.2 hfree ha.marked, ?_⟩
  rw [hlh]
  exact load_ballocLog_le hw ha.range.2

end

/-! ## `bmap` -/

/-- A call has put `d` data blocks into the log, and taken `c` blocks at most. -/
structure Used (ip : Ip) (w : Needs) (d c : ℕ) (s s' : State) : Prop where
  load : logLoad s' ip w ≤ logLoad s ip w + d
  free : freeBlocks s ≤ freeBlocks s' + c

/-- How many blocks `bmap` takes for block `bn` of the file. -/
def cost (s : State) (ip : Ip) (bn : ℕ) : ℕ :=
  (if fileBlock s.blk (s.itable ip).din bn = 0 then 1 else 0) +
    if NDIRECT ≤ bn ∧ (s.itable ip).din.addrs NDIRECT = 0 then 1 else 0

/-- How many entries of the log the data of this block takes. -/
def dataEntry (s : State) (ip : Ip) (bn : ℕ) : ℕ :=
  if fileBlock s.blk (s.itable ip).din bn = 0 ∨ fileBlock s.blk (s.itable ip).din bn ∉ s.log.lh
  then 1 else 0

section

variable (h : Consistent (some (s.itable ip).inum) s V)
include h

section

variable (hl : (s.itable ip).locked = true)
include hl

theorem ballocAddr_room {t : ℕ} (hw : w.bitmap = true) (hind : t = NDIRECT → w.indirect = true)
    (hopen : 0 < s.log.outstanding) (hroom : logLoad s ip w < capacity s.log)
    (hfree : 0 < freeBlocks s)
    (h0 : (V (s.itable ip).inum).addrs t = 0) : Spec (do
        let b ← balloc
        setDin ip fun din => { din with addrs := update din.addrs t b }
        return b : Kern ℕ) s
      (fun b s' => b ∈ s'.log.lh ∧ Used ip w (if t = NDIRECT then 0 else 1) 1 s s')
      fun _ => False := by
  have hlt : load (metaBlocks s.sb (s.itable ip).inum w.bitmap) s.log.lh < capacity s.log :=
    lt_of_le_of_lt (Nat.le_add_right _ _) hroom
  refine (balloc_total hw hopen hlt hfree h.owned.layout h.owned.marked).bind ?_
  rintro b s1 ⟨ha, hfree1, hload⟩
  unfold setDin setInode
  simp only [spec_bind, spec_get, spec_modify, spec_pure]
  refine ⟨ha.logged, ?_⟩
  have hmem := h.table.held hl
  set s2 : State := { s1 with
    itable := update s1.itable ip { s1.itable ip with
      din := { (s1.itable ip).din with
        addrs := update (s1.itable ip).din.addrs t b } } } with hs2
  have hent : s2.itable ip = { s.itable ip with
      din := { (s.itable ip).din with addrs := update (s.itable ip).din.addrs t b } } := by
    rw [hs2]
    dsimp only
    rw [update_self, ha.itable]
  have hsb : s2.sb = s.sb := ha.changes.sb
  have hlh : s2.log.lh = s1.log.lh := rfl
  have hi2 : (s2.itable ip).inum = (s.itable ip).inum := by rw [hent]
  by_cases ht : t = NDIRECT
  · subst ht
    rw [if_pos rfl]
    have hw' : w.indirect ≠ false := by simp [hind rfl]
    have hind0 : (s.itable ip).din.addrs NDIRECT = 0 := by rw [hmem, h0]
    have hind2 : (s2.itable ip).din.addrs NDIRECT = b := by
      rw [hent]
      show update (s.itable ip).din.addrs NDIRECT b NDIRECT = b
      rw [update_self]
    constructor
    · rw [logLoad_eq hi2 hind2, logLoad_eq rfl hind0, hsb, hlh,
        if_pos (.inr ⟨ha.ne_zero, ha.logged⟩), if_neg (Not.intro (Or.rec hw' fun h' => h'.1 rfl))]
      omega
    · exact hfree1.le
  · rw [if_neg ht]
    have hind2 : (s2.itable ip).din.addrs NDIRECT = (s.itable ip).din.addrs NDIRECT := by
      rw [hent]
      show update (s.itable ip).din.addrs t b NDIRECT = _
      rw [update_of_ne (Ne.symm ht)]
    constructor
    · rw [logLoad_eq hi2 hind2, hsb, hlh]
      unfold logLoad
      split_ifs with h1 h2 h2
      · omega
      · omega
      · exact absurd (h2.imp_right fun h2 => ⟨h2.1, ha.changes.lh _ h2.2⟩) h1
      · omega
    · exact hfree1.le

theorem bmapIndirect_room (hw : (s.itable ip).din.addrs NDIRECT = 0 → w = ⟨true, true⟩)
    (hopen : 0 < s.log.outstanding) (hroom : logLoad s ip w < capacity s.log)
    (hfree : (s.itable ip).din.addrs NDIRECT = 0 → 0 < freeBlocks s) :
    Spec (bmapIndirect ip) s (fun _ s' =>
      Used ip w 0 (if (s.itable ip).din.addrs NDIRECT = 0 then 1 else 0) s s' ∧
      ((s.itable ip).din.addrs NDIRECT ≠ 0 → s' = s)) fun _ => False := by
  unfold bmapIndirect
  rw [spec_get_bind]
  dsimp only
  split
  · rename_i h0
    have h0' := h0
    rw [h.table.held hl] at h0'
    refine (ballocAddr_room h hl (by rw [hw h0]) (fun _ => by rw [hw h0]) hopen hroom (hfree h0)
      h0').imp fun b s' hu => ?_
    rw [if_pos rfl] at hu
    exact ⟨hu.2, fun hn => absurd h0 hn⟩
  · rw [spec_pure]
    exact ⟨⟨le_rfl, le_rfl⟩, fun _ => rfl⟩

theorem ballocWord_room {k : ℕ} (hw : w = ⟨true, true⟩) (hopen : 0 < s.log.outstanding)
    (hroom : logLoad s ip w + 1 < capacity s.log) (hfree : 0 < freeBlocks s)
    (hind : (V (s.itable ip).inum).addrs NDIRECT ≠ 0) : Spec (do
        let b ← balloc
        let a ← bread ((V (s.itable ip).inum).addrs NDIRECT)
        store ((V (s.itable ip).inum).addrs NDIRECT) (a.set (4 * k) 4 b)
        logWrite ((V (s.itable ip).inum).addrs NDIRECT)
        return b : Kern ℕ) s
      (fun b s' => b ∈ s'.log.lh ∧ Used ip w 1 1 s s') fun _ => False := by
  have hlt : load (metaBlocks s.sb (s.itable ip).inum w.bitmap) s.log.lh < capacity s.log := by
    unfold logLoad at hroom
    omega
  have hw' : w.indirect ≠ false := by simp [hw]
  refine (balloc_total (by rw [hw]) hopen hlt hfree h.owned.layout h.owned.marked).bind ?_
  rintro b s1 ⟨ha, hfree1, hload⟩
  unfold bread
  simp only [spec_bind, spec_get, spec_pure]
  have hdin : (s.itable ip).din.addrs NDIRECT = (V (s.itable ip).inum).addrs NDIRECT := by
    rw [h.table.held hl]
  set ind := (V (s.itable ip).inum).addrs NDIRECT with hindef
  have hcap : capacity s1.log = capacity s.log := by
    rw [ha.changes.log]
    rfl
  have hopen1 : 0 < s1.log.outstanding := by
    rw [ha.changes.log]
    exact hopen
  have hlen : s1.log.lh.length ≤ load (metaBlocks s.sb (s.itable ip).inum w.bitmap) s1.log.lh :=
    length_le_load
  have hroom1 : s1.log.lh.length < capacity s1.log := by
    unfold logLoad at hroom
    omega
  refine spec_store_logWrite_room hopen1 hroom1 fun s2 hch hblk htab hlog => ?_
  replace hch := hch (by
    rw [ha.changes.sb]
    exact h.owned.inodestart_le_indirect hind)
  have hlh : s2.log.lh = logAdd s1.log.lh ind := by rw [hlog]
  have hent : s2.itable ip = s.itable ip := by rw [htab, ha.itable]
  have hi2 : (s2.itable ip).inum = (s.itable ip).inum := by rw [hent]
  have hind2 : (s2.itable ip).din.addrs NDIRECT = ind := by rw [hent, hdin]
  have hadd : load (metaBlocks s.sb (s.itable ip).inum w.bitmap) (logAdd s1.log.lh ind) ≤ _ + _ :=
    load_logAdd_le
  have hsb2 : s2.sb = s.sb := hch.sb.trans ha.changes.sb
  refine ⟨?_, ?_, ?_⟩
  · rw [hlh]
    exact mem_logAdd.mpr (.inr ha.logged)
  · rw [logLoad_eq hi2 hind2, logLoad_eq rfl hdin, hsb2, hlh,
      if_pos (.inr ⟨hind, mem_logAdd.mpr (.inl rfl)⟩)]
    by_cases hold : ind ∈ s.log.lh
    · rw [if_pos (ha.changes.lh _ hold)] at hadd
      rw [if_pos (.inr ⟨hind, hold⟩)]
      omega
    · rw [if_neg (Not.intro (Or.rec hw' fun h' => hold h'.2))]
      split_ifs at hadd <;> omega
  · -- the indirect block is not part of the bitmap
    have hge : s.sb.dataStart ≤ ind := by
      have := h.owned.slots.range (i := (s.itable ip).inum) (s := NDIRECT)
      rw [slots_eq_indirect] at this
      exact (this hind).1
    have hfree2 : freeBlocks s2 = freeBlocks s1 := by
      apply freeBlocks_congr hch.sb
      intro c hc
      apply inUse_congr
      have := Superblock.BBLOCK_lt hc
      rw [ha.changes.sb] at this ⊢
      rw [hblk, update_of_ne (by omega)]
    omega

theorem bmap_room {bn k : ℕ} (hbn : bn < MAXFILE)
    (hw : fileBlock s.blk (s.itable ip).din bn = 0 → w.bitmap = true)
    (hw' : fileBlock s.blk (s.itable ip).din bn = 0 → NDIRECT ≤ bn → w.indirect = true)
    (hB : Budget ip w (dataEntry s ip bn + k) s) (hcost : cost s ip bn ≤ freeBlocks s) :
    Spec (bmap ip bn) s (fun b s' => Used ip w (dataEntry s ip bn) (cost s ip bn) s s' ∧
      (b ∉ s'.log.lh → dataEntry s ip bn = 1 ∧ Used ip w 0 (cost s ip bn) s s')) fun _ => False := by
  have hroom := hB.log
  have hentry : fileBlock s.blk (s.itable ip).din bn = 0 → dataEntry s ip bn = 1 := fun h0 =>
    if_pos (.inl h0)
  have hnone : Used ip w (dataEntry s ip bn) (cost s ip bn) s s ∧
      (fileBlock s.blk (s.itable ip).din bn ∉ s.log.lh →
        dataEntry s ip bn = 1 ∧ Used ip w 0 (cost s ip bn) s s) :=
    ⟨⟨Nat.le_add_right _ _, Nat.le_add_right _ _⟩,
      fun hn => ⟨if_pos (.inr hn), le_rfl, Nat.le_add_right _ _⟩⟩
  unfold bmap
  rw [spec_get_bind]
  by_cases hd : bn < NDIRECT
  · rw [if_pos hd]
    split
    · rename_i h0
      have hfile : fileBlock s.blk (s.itable ip).din bn = 0 := by rw [fileBlock_direct hd, h0]
      have hc : cost s ip bn = 1 := by
        unfold cost
        rw [if_pos hfile, if_neg (by omega)]
      rw [hc] at hcost ⊢
      rw [hentry hfile] at hroom ⊢
      rw [h.table.held hl] at h0
      refine (ballocAddr_room h hl (hw hfile) (fun e => by omega) hB.trans (by omega) hcost h0).imp ?_
      rintro b s' ⟨hb, hu⟩
      rw [if_neg (by omega)] at hu
      exact ⟨hu, fun hn => absurd hb hn⟩
    · rw [spec_pure, ← fileBlock_direct hd]
      exact hnone
  · have hk : bn - NDIRECT < NINDIRECT := by
      unfold MAXFILE at hbn
      omega
    rw [if_neg hd, if_pos hk]
    have hfile := fileBlock_indirect (d := s.blk) (x := (s.itable ip).din) (by omega) hk
    -- without an indirect block there is no data block either
    have hc : cost s ip bn = if (s.itable ip).din.addrs NDIRECT = 0 then 2
        else if (s.blk ((s.itable ip).din.addrs NDIRECT)).get (4 * (bn - NDIRECT)) 4 = 0 then 1
        else 0 := by
      unfold cost
      rw [hfile]
      split_ifs <;> omega
    have hboth : fileBlock s.blk (s.itable ip).din bn = 0 → w = ⟨true, true⟩ := by
      intro h0
      obtain ⟨bitmap, indirect⟩ := w
      exact congrArg₂ Needs.mk (hw h0) (hw' h0 (by omega))
    have hfree : (s.itable ip).din.addrs NDIRECT = 0 → 0 < freeBlocks s := fun h0 => by
      rw [hc, if_pos h0] at hcost
      omega
    refine ((bmapIndirect_room h hl (fun h0 => hboth (by rw [hfile, if_pos h0])) hB.trans (by omega)
      hfree).and (bmapIndirect_spec .all h hl)).bind ?_
    rintro a s1 ⟨⟨hu, hsame⟩, V1, hg, rfl, ha⟩
    have hrep := hg.rep
    rw [← hg.inum ip] at hrep ha ⊢
    have hl1 : (s1.itable ip).locked = true := by rwa [hg.locked]
    have hB1 : Budget ip w (dataEntry s ip bn + k) s1 := by
      refine Budget.spend (d := 0) ?_ hg.changes.log hu.load
      rwa [Nat.zero_add]
    rw [spec_bind]
    unfold bread
    rw [spec_get_bind, spec_pure]
    have h1 := hu.load
    have h2 := hu.free
    split
    · rename_i hword
      have hmissing : fileBlock s.blk (s.itable ip).din bn = 0 := by
        rw [hfile]
        split_ifs with h0
        · rfl
        · rw [← hrep.table.held hl1] at hword
          rwa [hsame h0] at hword
      have hcost1 : (if (s.itable ip).din.addrs NDIRECT = 0 then 1 else 0) + 1 = cost s ip bn := by
        rw [hfile] at hmissing
        rw [hc]
        split_ifs at hmissing ⊢
        · rfl
        · rfl
      rw [hentry hmissing] at hB1 ⊢
      have hroom1 := hB1.log
      refine (ballocWord_room hrep hl1 (hboth hmissing) hB1.trans (by omega) (by omega) ha).imp ?_
      rintro b s2 ⟨hb, hu2⟩
      have h3 := hu2.load
      have h4 := hu2.free
      exact ⟨⟨by omega, by omega⟩, fun hn => absurd hb hn⟩
    · rw [spec_pure]
      have hle : (if (s.itable ip).din.addrs NDIRECT = 0 then 1 else 0) ≤ cost s ip bn := by
        rw [hc]
        split_ifs <;> omega
      refine ⟨⟨by omega, by omega⟩, fun hn => ⟨?_, h1, by omega⟩⟩
      by_cases h0 : (s.itable ip).din.addrs NDIRECT = 0
      · exact hentry (by rw [hfile, if_pos h0])
      · rw [← hrep.table.held hl1, hsame h0] at hn
        refine if_pos (.inr ?_)
        rwa [hfile, if_neg h0]

end

end

/-! ## `writei` -/

/-- The copies of the first `n` bytes succeed. -/
def Mem.Ready (src : Mem) (n : ℕ) : Prop :=
  src.Holds n ∧ ∀ tot m, tot + m ≤ n → (eitherCopyin src tot m).2 = true

/-- The blocks that `n` bytes at offset `off` are in. -/
def touched (off n : ℕ) : Finset ℕ :=
  (Finset.range MAXFILE).filter fun bn => 0 < n ∧ off / BSIZE ≤ bn ∧ bn * BSIZE < off + n

/-- How many blocks a write of `n` bytes at offset `off` takes. -/
def missing (s : State) (ip : Ip) (off n : ℕ) : ℕ :=
  ((touched off n).filter fun bn => fileBlock s.blk (s.itable ip).din bn = 0).card +
    if (∃ bn ∈ touched off n, NDIRECT ≤ bn) ∧ (s.itable ip).din.addrs NDIRECT = 0 then 1 else 0

/-- The blocks in this range whose data is not in the log. -/
def unlogged (s : State) (ip : Ip) (off n : ℕ) : Finset ℕ :=
  (touched off n).filter fun bn => fileBlock s.blk (s.itable ip).din bn = 0 ∨
    fileBlock s.blk (s.itable ip).din bn ∉ s.log.lh

/-- What a write of `n` bytes at offset `off` changes besides data. -/
def needs (s : State) (ip : Ip) (off n : ℕ) : Needs where
  bitmap := decide (∃ bn ∈ touched off n, fileBlock s.blk (s.itable ip).din bn = 0)
  indirect := decide (∃ bn ∈ touched off n, NDIRECT ≤ bn ∧
    fileBlock s.blk (s.itable ip).din bn = 0)

/-- There are blocks for the write, and there is room for it in the log. -/
def WriteRoom (ip : Ip) (off n : ℕ) (s : State) : Prop :=
  Budget ip (needs s ip off n) (unlogged s ip off n).card s ∧ missing s ip off n ≤ freeBlocks s

/-- `w` has all that the write changes. -/
structure Covers (w : Needs) (ip : Ip) (off n : ℕ) (s : State) : Prop where
  bitmap : ∀ bn ∈ touched off n, fileBlock s.blk (s.itable ip).din bn = 0 → w.bitmap = true
  indirect : ∀ bn ∈ touched off n, fileBlock s.blk (s.itable ip).din bn = 0 → NDIRECT ≤ bn →
    w.indirect = true

theorem covers_needs : Covers (needs s ip off n) ip off n s where
  bitmap bn hbn h0 := decide_eq_true ⟨bn, hbn, h0⟩
  indirect bn hbn h0 hge := decide_eq_true ⟨bn, hbn, hge, h0⟩

theorem card_unlogged_le (hlh : ∀ b ∈ s.log.lh, b ∈ s'.log.lh)
    (hkeep : ∀ bn, fileBlock s.blk (s.itable ip).din bn ≠ 0 →
      fileBlock s'.blk (s'.itable ip).din bn = fileBlock s.blk (s.itable ip).din bn) :
    (unlogged s' ip off n).card ≤ (unlogged s ip off n).card := by
  refine Finset.card_le_card fun bn hbn => ?_
  obtain ⟨hmem, hbn⟩ := Finset.mem_filter.mp hbn
  refine Finset.mem_filter.mpr ⟨hmem, ?_⟩
  by_contra hno
  obtain ⟨h0, hin⟩ := not_or.mp hno
  rw [hkeep bn h0] at hbn
  exact hbn.elim h0 fun h => h (hlh _ (not_not.mp hin))

theorem Writes.fileBlock_keep {f : ℕ → UInt8} (h : Writes ip f off m s V s' V')
    (hdin : (s.itable ip).din = V (s.itable ip).inum) (bn : ℕ)
    (hbn : fileBlock s.blk (s.itable ip).din bn ≠ 0) :
    fileBlock s'.blk (s'.itable ip).din bn = fileBlock s.blk (s.itable ip).din bn := by
  have hdin' : (s'.itable ip).din = V' (s.itable ip).inum := by rw [h.itable, update_self]
  rw [hdin] at hbn ⊢
  rw [hdin']
  exact h.keep _ _ hbn

/-! ## One round of `writei` -/

section Round

variable (hn : 0 < n) (hm : m = min n (BSIZE - off % BSIZE)) (hmax : off + n ≤ MAXFILE * BSIZE)
include hn hm hmax

theorem touched_step :
    touched off n = insert (off / BSIZE) (touched (off + m) (n - m)) ∧
      off / BSIZE ∉ touched (off + m) (n - m) := by
  have hlt : off / BSIZE < MAXFILE := by
    rw [Nat.div_lt_iff_lt_mul (by decide)]
    omega
  constructor
  · ext bn
    simp only [touched, Finset.mem_insert, Finset.mem_filter, Finset.mem_range]
    unfold BSIZE at *
    omega
  · simp only [touched, Finset.mem_filter, Finset.mem_range]
    unfold BSIZE at *
    omega

theorem Covers.step (h : Covers w ip off n s)
    (hkeep : ∀ bn, fileBlock s.blk (s.itable ip).din bn ≠ 0 →
      fileBlock s'.blk (s'.itable ip).din bn ≠ 0) : Covers w ip (off + m) (n - m) s' := by
  have hold : ∀ bn ∈ touched (off + m) (n - m), fileBlock s'.blk (s'.itable ip).din bn = 0 →
      bn ∈ touched off n ∧ fileBlock s.blk (s.itable ip).din bn = 0 := by
    intro bn hbn h0
    refine ⟨(touched_step hn hm hmax).1 ▸ Finset.mem_insert_of_mem hbn, ?_⟩
    by_contra hne
    exact hkeep bn hne h0
  constructor
  · exact fun bn hbn h0 => h.bitmap bn (hold bn hbn h0).1 (hold bn hbn h0).2
  · exact fun bn hbn h0 => h.indirect bn (hold bn hbn h0).1 (hold bn hbn h0).2

/-- The entries for the data of the first block, and for that of the others. -/
theorem card_unlogged : (unlogged s ip off n).card =
      dataEntry s ip (off / BSIZE) + (unlogged s ip (off + m) (n - m)).card := by
  obtain ⟨hstep, hnot⟩ := touched_step hn hm hmax
  unfold unlogged dataEntry
  rw [hstep, Finset.filter_insert]
  split_ifs
  · rw [Finset.card_insert_of_notMem fun h => hnot (Finset.mem_filter.mp h).1, Nat.add_comm]
  · rw [Nat.zero_add]

/-- What is missing after a round, if blocks have only been added and the first one is there. -/
theorem missing_step
    (hkeep : ∀ bn, fileBlock s.blk (s.itable ip).din bn ≠ 0 →
      fileBlock s'.blk (s'.itable ip).din bn ≠ 0)
    (hind : (s.itable ip).din.addrs NDIRECT ≠ 0 ∨ NDIRECT ≤ off / BSIZE →
      (s'.itable ip).din.addrs NDIRECT ≠ 0) :
    missing s' ip (off + m) (n - m) + cost s ip (off / BSIZE) ≤ missing s ip off n := by
  obtain ⟨hstep, hnot⟩ := touched_step hn hm hmax
  have hcard : ((touched off n).filter fun bn => fileBlock s.blk (s.itable ip).din bn = 0).card =
      ((touched (off + m) (n - m)).filter fun bn => fileBlock s.blk (s.itable ip).din bn = 0).card +
        if fileBlock s.blk (s.itable ip).din (off / BSIZE) = 0 then 1 else 0 := by
    rw [hstep, Finset.filter_insert]
    split_ifs
    · rw [Finset.card_insert_of_notMem fun h => hnot (Finset.mem_filter.mp h).1]
    · rfl
  have hsub : ((touched (off + m) (n - m)).filter
      fun bn => fileBlock s'.blk (s'.itable ip).din bn = 0).card ≤
      ((touched (off + m) (n - m)).filter fun bn => fileBlock s.blk (s.itable ip).din bn = 0).card := by
    refine Finset.card_le_card fun bn hbn => ?_
    rw [Finset.mem_filter] at hbn ⊢
    refine ⟨hbn.1, ?_⟩
    by_contra h0
    exact hkeep bn h0 hbn.2
  have hfirst : NDIRECT ≤ off / BSIZE → ∃ bn ∈ touched off n, NDIRECT ≤ bn := fun h =>
    ⟨_, hstep ▸ Finset.mem_insert_self _ _, h⟩
  have hrest : (∃ bn ∈ touched (off + m) (n - m), NDIRECT ≤ bn) →
      ∃ bn ∈ touched off n, NDIRECT ≤ bn := by
    rintro ⟨bn, hbn, h⟩
    exact ⟨bn, hstep ▸ Finset.mem_insert_of_mem hbn, h⟩
  unfold missing cost
  rw [hcard]
  by_cases h0 : (s.itable ip).din.addrs NDIRECT = 0
  · by_cases hge : NDIRECT ≤ off / BSIZE
    · rw [if_neg fun h => hind (.inr hge) h.2, if_pos (⟨hge, h0⟩ : _ ∧ _),
        if_pos (⟨hfirst hge, h0⟩ : _ ∧ _)]
      omega
    · rw [if_neg (fun h => hge h.1 : ¬ (NDIRECT ≤ off / BSIZE ∧ _))]
      by_cases hr : ∃ bn ∈ touched (off + m) (n - m), NDIRECT ≤ bn
      · rw [if_pos (⟨hrest hr, h0⟩ : _ ∧ _)]
        split_ifs <;> omega
      · rw [if_neg fun h => hr h.1]
        omega
  · rw [if_neg fun h => hind (.inl h0) h.2, if_neg (fun h => h0 h.2 : ¬ (NDIRECT ≤ _ ∧ _))]
    omega

theorem cost_le_missing : cost s ip (off / BSIZE) ≤ missing s ip off n := by
  have hstep := (touched_step hn hm hmax).1
  have hmem : off / BSIZE ∈ touched off n := hstep ▸ Finset.mem_insert_self _ _
  unfold cost missing
  apply Nat.add_le_add
  · split_ifs with h0
    · exact Finset.card_pos.mpr ⟨_, Finset.mem_filter.mpr ⟨hmem, h0⟩⟩
    · exact Nat.zero_le _
  · split_ifs with h1 h2 h2
    · exact le_rfl
    · exact absurd ⟨⟨_, hmem, h1.1⟩, h1.2⟩ h2
    · exact Nat.zero_le _
    · exact le_rfl

theorem Writes.missing_step {f : ℕ → UInt8} (h : Writes ip f off m s V s' V')
    (hdin : (s.itable ip).din = V (s.itable ip).inum) :
    missing s' ip (off + m) (n - m) + cost s ip (off / BSIZE) ≤ missing s ip off n := by
  have hdin' : (s'.itable ip).din = V' (s.itable ip).inum := by rw [h.itable, update_self]
  have hmod : off % BSIZE < BSIZE := Nat.mod_lt _ (by decide)
  have hlt : off / BSIZE < MAXFILE := by
    rw [Nat.div_lt_iff_lt_mul (by decide)]
    omega
  refine Fs.missing_step hn hm hmax (fun bn hbn => ?_) ?_
  · rwa [h.fileBlock_keep hdin _ hbn]
  · rw [hdin, hdin']
    rintro (h0 | hge)
    · rw [← slots_eq_indirect (d := s.blk)] at h0
      rw [← slots_eq_indirect (d := s'.blk), h.keep _ _ h0]
      exact h0
    · intro h0
      apply h.mapped off le_rfl (by omega)
      rw [fileBlock_indirect hge (by unfold MAXFILE at hlt; omega), if_pos h0]

end Round

theorem logLoad_data (hch : Changes s1 s2) (htab : s2.itable = s1.itable)
    (hlh : s2.log.lh = logAdd s1.log.lh b) :
    logLoad s2 ip w ≤ logLoad s1 ip w + if b ∈ s1.log.lh then 0 else 1 := by
  have hadd : load (metaBlocks s1.sb (s1.itable ip).inum w.bitmap) (logAdd s1.log.lh b) ≤ _ + _ :=
    load_logAdd_le
  have hi : (s2.itable ip).inum = (s1.itable ip).inum := by rw [htab]
  have hind : (s2.itable ip).din.addrs NDIRECT = (s1.itable ip).din.addrs NDIRECT := by rw [htab]
  rw [logLoad_eq hi hind, hch.sb, hlh, logLoad_eq rfl rfl]
  by_cases hold : w.indirect = false ∨ (s1.itable ip).din.addrs NDIRECT ≠ 0 ∧
    (s1.itable ip).din.addrs NDIRECT ∈ s1.log.lh
  · rw [if_pos hold, if_pos (hold.imp_right fun h => ⟨h.1, mem_logAdd.mpr (.inr h.2)⟩)]
    omega
  · rw [if_neg hold]
    split_ifs at hadd ⊢ <;> omega

theorem freeBlocks_data (hsb : s2.sb = s1.sb)
    (hlow : ∀ c, c < s1.sb.dataStart → s2.blk c = s1.blk c) : freeBlocks s2 = freeBlocks s1 := by
  apply freeBlocks_congr hsb
  intro c hc
  exact inUse_congr (hlow _ (Superblock.BBLOCK_lt hc))

variable {src : Mem}

theorem writeiLoop_room (base : ℕ) {k : ℕ}
    (h : Consistent (some (s.itable ip).inum) s V) (hl : (s.itable ip).locked = true)
    (hsrc : src.Holds n) (hk : n ≤ tot + k) (htot : tot ≤ src.reach n)
    (hmax : base + n ≤ MAXFILE * BSIZE) (hw : Covers w ip (base + tot) (n - tot) s)
    (hB : Budget ip w (unlogged s ip (base + tot) (n - tot)).card s)
    (hfree : missing s ip (base + tot) (n - tot) ≤ freeBlocks s) :
    Spec (writeiLoop ip src k tot (base + tot) n) s (fun _ s' => Budget ip w 0 s')
      fun _ => False := by
  have hreach := src.reach_le n
  induction k generalizing s V tot with
  | zero => exact spec_pure.mpr (hB.mono (Nat.zero_le _))
  | succ k ih =>
    unfold writeiLoop
    by_cases ht : tot < n
    · rw [if_pos ht]
      have hbn : (base + tot) / BSIZE < MAXFILE := by
        rw [Nat.div_lt_iff_lt_mul (by decide)]
        omega
      set m := min (n - tot) (BSIZE - (base + tot) % BSIZE) with hm
      have hmod : (base + tot) % BSIZE < BSIZE := Nat.mod_lt _ (by decide)
      have hpos : 0 < n - tot := by omega
      have hend : base + tot + (n - tot) ≤ MAXFILE * BSIZE := by omega
      have hcost : cost s ip ((base + tot) / BSIZE) ≤ missing s ip (base + tot) (n - tot) :=
        cost_le_missing hpos hm hend
      have hmem : (base + tot) / BSIZE ∈ touched (base + tot) (n - tot) :=
        (touched_step hpos hm hend).1 ▸ Finset.mem_insert_self _ _
      rw [card_unlogged hpos hm hend] at hB
      refine ((bmap_room h hl hbn (hw.bitmap _ hmem) (hw.indirect _ hmem) hB (by omega)).and
        (bmap_spec .all h hl hbn)).bind ?_
      rintro b s1 ⟨⟨hu, hu0⟩, V1, hg, rfl, hb⟩
      have hB1 := hB.spend hg.changes.log hu.load
      unfold bread
      simp only [spec_bind, spec_get, spec_pure]
      have hcopy := eitherCopyin_eq hsrc htot (show tot + m ≤ n by omega)
      by_cases hok : tot + m ≤ src.reach n
      · rw [show min m (src.reach n - tot) = m by omega] at hcopy
        rw [hcopy]
        dsimp only
        rw [decide_eq_true hok, if_pos rfl, src.map_byte base]
        simp only [spec_bind]
        refine spec_store_logWrite_room hB1.trans hB1.length_lt fun s2 hch hblk htab hlog => ?_
        replace hch := hch (hg.rep.owned.above hb)
        have hlh := congrArg Logging.Log.lh hlog
        dsimp only at hlh
        have hround : Writes ip (fun o => src.byte (o - base)) (base + tot) m s V s2 V1 := by
          refine hg.round hl (by omega) hb hch htab hblk (fun c => ?_) (by omega)
          rw [hlh]
          exact mem_logAdd
        obtain ⟨-, -, hlow, -⟩ := hg.rep.storeData hb hch.sb htab hblk
        have hload : logLoad s2 ip w ≤ logLoad s1 ip w + _ := logLoad_data hch htab hlh
        have hfree2 : freeBlocks s2 = freeBlocks s1 := freeBlocks_data hch.sb hlow
        have hkeep := hround.fileBlock_keep (h.table.held hl)
        have hB2 : Budget ip w (unlogged s2 ip (base + tot + m) (n - tot - m)).card s2 := by
          refine (hB.spend hround.changes.log ?_).mono (card_unlogged_le hround.changes.lh hkeep)
          split_ifs at hload with hin
          · have := hu.load
            omega
          · have := (hu0 hin).1
            have := (hu0 hin).2.load
            omega
        have hmiss : missing s2 ip (base + tot + m) (n - tot - m) +
            cost s ip ((base + tot) / BSIZE) ≤ missing s ip (base + tot) (n - tot) :=
          hround.missing_step hpos hm hend (h.table.held hl)
        have hw2 : Covers w ip (base + tot + m) (n - tot - m) s2 :=
          hw.step hpos hm hend fun bn hbn => by rwa [hkeep bn hbn]
        have hi := hround.inum ip
        rw [Nat.sub_sub, Nat.add_assoc] at hmiss hB2 hw2
        rw [Nat.add_assoc]
        refine ih (hi ▸ hround.rep) (by rwa [hround.locked]) (by omega) hok hw2 hB2 ?_
        have := hu.free
        omega
      · rw [hcopy]
        dsimp only
        rw [decide_eq_false hok, if_neg (by decide)]
        unfold store
        rw [spec_modify, spec_pure]
        exact ⟨hB1.trans, (Nat.le_add_right _ _).trans_lt hB1.log⟩
    · rw [if_neg ht, spec_pure]
      exact hB.mono (Nat.zero_le _)

theorem Mem.Ready.reach (h : src.Ready n) : src.reach n = n := by
  have hle := src.reach_le n
  have hcopy := h.2 0 n (Nat.zero_add n).le
  rw [eitherCopyin_eq h.1 (Nat.zero_le _) (Nat.zero_add n).le, decide_eq_true_iff] at hcopy
  omega

theorem Mem.Ready.counted (h : src.Ready n) : src.counted off n = n := if_pos h.reach

section

variable (h : Consistent none s V) (hl : (s.itable ip).locked = true)
include h hl

/-- A write that starts behind the end, or is too long, does nothing. -/
theorem writei_refused
    (hout : ¬ (off ≤ (V (s.itable ip).inum).size ∧ off + n ≤ MAXFILE * BSIZE)) :
    Spec (writei ip src off n) s (fun r s' => r = none ∧ s' = s) E := by
  unfold writei
  rw [spec_get_bind]
  dsimp only
  rw [h.table.held hl]
  split
  · exact spec_pure.mpr ⟨rfl, rfl⟩
  · rw [if_pos (by omega)]
    exact spec_pure.mpr ⟨rfl, rfl⟩

variable (hroom : WriteRoom ip off n s) (hoff : off ≤ (V (s.itable ip).inum).size)
  (hmax : off + n ≤ MAXFILE * BSIZE)
include hroom hoff hmax

/-- With enough of everything a write does not panic, whether the copies succeed or not. -/
theorem writei_room (hsrc : src.Holds n) :
    Spec (writei ip src off n) s (fun r _ => r ≠ none) fun _ => False := by
  have hsz : (off + n) % 2 ^ 32 = off + n := by
    refine Nat.mod_eq_of_lt ?_
    have : MAXFILE * BSIZE < 2 ^ 32 := by decide
    omega
  unfold writei
  rw [spec_get_bind]
  rw [h.table.held hl, if_neg (by rw [hsz]; omega), if_neg (by omega)]
  have hloop : Spec (writeiLoop ip src n 0 off n) s _ fun _ => False :=
    writeiLoop_room off h.weaken hl hsrc (by omega) (Nat.zero_le _) hmax covers_needs hroom.1 hroom.2
  refine hloop.bind fun r s1 hB1 => ?_
  unfold setDin setInode iupdate
  simp only [spec_bind, spec_get, spec_modify, spec_pure]
  refine spec_store_logWrite_room ?_ ?_ fun s2 _ _ _ _ => ?_
  · exact hB1.trans
  · exact hB1.length_lt
  · exact Option.some_ne_none _

theorem writei_total (hsrc : src.Ready n) :
    Spec (writei ip src off n) s (fun r s' => r = some n ∧ ∃ V',
      Written none (max (V (s.itable ip).inum).size (off + n)) ip src off n n s V s' V')
      fun _ => False := by
  refine ((writei_room h hl hroom hoff hmax hsrc.1).and (writei_spec .all h hl hsrc.1)).imp ?_
  rintro r s' ⟨hr, hV⟩
  obtain ⟨r, rfl⟩ := Option.ne_none_iff_exists'.mp hr
  obtain ⟨rfl, hV⟩ := hV
  rw [hsrc.counted] at hV ⊢
  exact ⟨rfl, hV⟩

end

end TatakOS.Fs
