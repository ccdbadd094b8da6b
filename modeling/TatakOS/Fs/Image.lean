import TatakOS.Fs.Mkfs

/-!
# What `mkfs` writes

`Core` is what `iappend` keeps, round by round: the blocks from `nmeta` to `freeblock` are the
blocks of the files, each in one slot, those behind are zero, and each file has the bytes that were
appended to it. `Stable` adds what holds between two calls of `iappend`, when the inodes are on the
disk.
-/

namespace TatakOS.Fs.Mkfs

open Function

variable {img img' : ℕ → Block} {ino : ℕ → Dinode} {fb : ℕ} {f : ℕ → List UInt8}
  {i j s t b bn o : ℕ}

/-- The files `f` on the sectors `img`, with the inodes `ino`. -/
structure Core (img : ℕ → Block) (ino : ℕ → Dinode) (fb : ℕ) (f : ℕ → List UInt8) : Prop where
  slots : Slots nmeta fb (slots img ino)
  cover : ∀ b, nmeta ≤ b → b < fb → ∃ i t, Fs.slots img ino i t = b
  fresh : ∀ b, fb ≤ b → img b = fun _ => 0
  mapped : ∀ i bn, bn * BSIZE < (f i).length → fileBlock img (ino i) bn ≠ 0
  bytes : ∀ i o, fileBlock img (ino i) (o / BSIZE) ≠ 0 → byteAt img (ino i) o = (f i).getD o 0

theorem Core.congr (h : Core img ino fb f) (hb : ∀ b, nmeta ≤ b → img' b = img b)
    (hpos : nmeta ≤ fb) : Core img' ino fb f := by
  have hS : Fs.slots img' ino = Fs.slots img ino := by
    funext i s
    refine slot_congr fun h0 => hb _ ?_
    have h1 : Fs.slots img ino i NDIRECT ≠ 0 := by rwa [slots_eq_indirect]
    have := (h.slots.range h1).1
    rwa [slots_eq_indirect] at this
  have hF : ∀ i bn, fileBlock img' (ino i) bn = fileBlock img (ino i) bn := fun i bn =>
    congrFun (congrFun hS i) (fileSlot bn)
  refine ⟨hS ▸ h.slots, fun b h1 h2 => hS ▸ h.cover b h1 h2, fun b hfb => ?_, fun i bn hlt => ?_,
    fun i o h0 => ?_⟩
  · rw [hb b (by omega)]
    exact h.fresh b hfb
  · rw [hF]
    exact h.mapped i bn hlt
  · rw [hF] at h0
    rw [← h.bytes i o h0]
    unfold byteAt
    rw [hF, hb]
    exact (h.slots.range h0).1

variable {ino' : ℕ → Dinode}

/-- Take the next block for an empty slot. The sectors change in indirect blocks at most. -/
theorem Core.alloc (h : Core img ino fb f) (hpos : nmeta ≤ fb)
    (hS : Fs.slots img' ino' = assign (Fs.slots img ino) i s fb) (hz : Fs.slots img ino i s = 0)
    (himg : ∀ b, (∀ j, Fs.slots img ino j NDIRECT ≠ 0 → Fs.slots img ino j NDIRECT ≠ b) →
      img' b = img b) : Core img' ino' (fb + 1) f := by
  have hnm : 0 < nmeta := by decide
  have hlt : ∀ j t, Fs.slots img ino j t ≠ fb := by
    intro j t e
    have h0 : Fs.slots img ino j t ≠ 0 := by omega
    have := (h.slots.range h0).2
    omega
  have hfile : ∀ j bn, fileBlock img' (ino' j) bn =
      if j = i ∧ fileSlot bn = s then fb else fileBlock img (ino j) bn := by
    intro j bn
    show Fs.slots img' ino' j (fileSlot bn) = _
    rw [hS, assign_eq_iff]
    rfl
  refine ⟨?_, fun b h1 h2 => ?_, fun b hb => ?_, fun j bn hlen => ?_, fun j o h0 => ?_⟩
  · rw [hS]
    exact h.slots.assign hlt ⟨hpos, by omega⟩ (by omega)
  · rw [hS]
    by_cases e : b = fb
    · exact ⟨i, s, by rw [assign_self, e]⟩
    · obtain ⟨j, t, hjt⟩ := h.cover b h1 (by omega)
      refine ⟨j, t, ?_⟩
      rw [assign_eq_iff, if_neg]
      · exact hjt
      · rintro ⟨rfl, rfl⟩
        omega
  · rw [himg b fun j h0 e => ?_]
    · exact h.fresh b (by omega)
    · have := (h.slots.range h0).2
      omega
  · rw [hfile]
    split_ifs
    · omega
    · exact h.mapped j bn hlen
  · rw [hfile] at h0
    unfold byteAt
    rw [hfile]
    by_cases e : j = i ∧ fileSlot (o / BSIZE) = s
    · -- a block of zeroes behind the end of the file
      obtain ⟨rfl, rfl⟩ := e
      rw [if_pos ⟨rfl, rfl⟩, himg fb fun j' _ => hlt j' _, h.fresh fb le_rfl]
      have hlen : (f j).length ≤ o := by
        by_contra hn
        refine h.mapped j (o / BSIZE) ?_ hz
        have := Nat.div_mul_le_self o BSIZE
        omega
      rw [List.getD_eq_default _ _ hlen]
    · rw [if_neg e] at h0 ⊢
      rw [← h.bytes j o h0]
      unfold byteAt
      rw [himg]
      intro j' h0' e'
      exact fileSlot_ne _ (h.slots.inj h0' e').2.symm

variable {p : List UInt8}

theorem Core.write (h : Core img ino fb f) (hb : fileBlock img (ino i) ((f i).length / BSIZE) ≠ 0)
    (hp : (f i).length % BSIZE + p.length ≤ BSIZE) :
    Core (update img (fileBlock img (ino i) ((f i).length / BSIZE))
        ((img (fileBlock img (ino i) ((f i).length / BSIZE))).blit ((f i).length % BSIZE) p)) ino fb
      (update f i (f i ++ p)) := by
  set off := (f i).length with hoff
  set b := fileBlock img (ino i) (off / BSIZE) with hbdef
  have hS := h.slots.write (v := (img b).blit (off % BSIZE) p) (i := i)
    (s := fileSlot (off / BSIZE)) (b := b) rfl (fileSlot_ne _)
  have hfile : ∀ j bn, fileBlock (update img b ((img b).blit (off % BSIZE) p)) (ino j) bn =
      fileBlock img (ino j) bn := fun j bn => congrFun (congrFun hS j) (fileSlot bn)
  have hBS : 0 < BSIZE := by decide
  have hmod := Nat.div_add_mod off BSIZE
  refine ⟨hS ▸ h.slots, fun b h1 h2 => hS ▸ h.cover b h1 h2, fun b' hb' => ?_, fun j bn hlen => ?_,
    fun j o h0 => ?_⟩
  · have hne : b' ≠ b := by
      have := (h.slots.range hb).2
      have hb'' : Fs.slots img ino i (fileSlot (off / BSIZE)) = b := rfl
      omega
    rw [update_of_ne hne]
    exact h.fresh b' hb'
  · rw [hfile]
    by_cases e : j = i
    · subst e
      rw [update_self, List.length_append] at hlen
      by_cases hbn : bn * BSIZE < off
      · exact h.mapped j bn hbn
      · -- the block that is written
        have hbn' : bn = off / BSIZE := by
          unfold BSIZE at *
          omega
        rw [hbn']
        exact hb
    · rw [update_of_ne e] at hlen
      exact h.mapped j bn hlen
  · rw [hfile] at h0
    unfold byteAt
    rw [hfile]
    by_cases e : fileBlock img (ino j) (o / BSIZE) = b
    · obtain ⟨rfl, hs⟩ := h.slots.inj h0 e
      have hbn := fileSlot_inj hs
      have hold : img b (o % BSIZE) = (f j).getD o 0 := by
        rw [← h.bytes j o h0, byteAt, e]
      rw [e, update_self, update_self]
      unfold Bytes.blit
      by_cases hin : off % BSIZE ≤ o % BSIZE ∧ o % BSIZE < off % BSIZE + p.length
      · rw [if_pos hin, List.getD_append_right _ _ _ _ (by unfold BSIZE at *; omega)]
        congr 1
        unfold BSIZE at *
        omega
      · rw [if_neg hin, hold]
        by_cases ho : o < off
        · rw [List.getD_append _ _ _ _ ho]
        · rw [List.getD_eq_default _ _ (by omega), List.getD_eq_default]
          rw [List.length_append]
          unfold BSIZE at *
          omega
    · rw [update_of_ne e]
      show byteAt img (ino j) o = _
      rw [h.bytes j o h0]
      by_cases hj : j = i
      · subst hj
        have hbn : o / BSIZE ≠ off / BSIZE := by
          intro hbn
          rw [hbn] at e
          exact e rfl
        rw [update_self]
        by_cases ho : o < off
        · rw [List.getD_append _ _ _ _ ho]
        · rw [List.getD_eq_default _ _ (by omega), List.getD_eq_default]
          rw [List.length_append]
          unfold BSIZE at *
          omega
      · rw [update_of_ne hj]

/-! ## One round of `iappend` -/

/-- The write leaves alone what belongs to something else: an inode goes to its place in the inode
blocks, and the blocks of files are behind the bitmap. -/
def Write.Intact (w : Write) : Prop :=
  match w.item with
  | .zero | .super | .bitmap => True
  | .inode i => (w.sec = sb.IBLOCK i ∧ sb.inodestart ≤ w.sec ∧ w.sec < sb.bmapstart) ∧
      ∀ k, k < 64 * (i % IPB) ∨ 64 * (i % IPB) + 64 ≤ k → w.new k = w.old k
  | .data _ | .indirect _ => nmeta ≤ w.sec ∧ w.sec < FSSIZE

/-- What the code for the blocks of files leaves alone. -/
structure Later (s s' : Mk) : Prop where
  len : s'.len = s.len
  freeinode : s'.freeinode = s.freeinode
  low : ∀ b < nmeta, s'.img b = s.img b
  writes : (∀ w ∈ s.writes, w.Intact) → ∀ w ∈ s'.writes, w.Intact

theorem Later.refl (s : Mk) : Later s s := ⟨rfl, rfl, fun _ _ => rfl, id⟩

theorem Later.trans {s s' s'' : Mk} (h : Later s s') (h' : Later s' s'') : Later s s'' :=
  ⟨h'.len.trans h.len, h'.freeinode.trans h.freeinode,
    fun b hb => (h'.low b hb).trans (h.low b hb), fun hw => h'.writes (h.writes hw)⟩

/-- Any failure: then there is no image. -/
def Fails (_ : Exit) : Prop := True

variable {m : Mk}

theorem spec_rsect {sec : ℕ} {Q : Block → Mk → Prop} :
    Spec (rsect sec) m Q Fails ↔ (sec < m.len → Q (m.img sec) m) := by
  unfold rsect
  rw [spec_get_bind]
  by_cases h : sec < m.len
  · rw [if_pos h, spec_pure]
    exact ⟨fun hQ _ => hQ, fun hQ => hQ h⟩
  · rw [if_neg h, spec_throw]
    exact ⟨fun _ h' => absurd h' h, fun _ => trivial⟩

theorem Later.wsect {item : Item} {sec : ℕ} (buf : Block) (hlen : m.len = FSSIZE)
    (hitem : ∃ i, item = .data i ∨ item = .indirect i) (hlo : nmeta ≤ sec) (hhi : sec < FSSIZE) :
    Later m { m with
      img := update m.img sec buf
      len := max m.len (sec + 1)
      writes := ⟨item, sec, m.img sec, buf⟩ :: m.writes } := by
  refine ⟨by simp only [hlen]; omega, rfl, fun b hb => update_of_ne (by omega) _ _,
    fun hw w hmem => ?_⟩
  obtain rfl | hmem := List.mem_cons.mp hmem
  · obtain ⟨i, rfl | rfl⟩ := hitem <;> exact ⟨hlo, hhi⟩
  · exact hw w hmem

/-- File `i` has the inode `r` now, and the blocks up to `x` may have been taken. -/
structure Grown (ino : ℕ → Dinode) (i : ℕ) (f : ℕ → List UInt8) (m : Mk) (r : Dinode) (x : ℕ)
    (m' : Mk) : Prop where
  core : Core m'.img (update ino i r) m'.freeblock f
  head : r = { ino i with addrs := r.addrs }
  fits : r.Fits
  later : Later m m'
  lo : nmeta ≤ m'.freeblock
  hi : m'.freeblock ≤ max FSSIZE (x + 1)

section

variable (h : Core m.img ino m.freeblock f) (hlo : nmeta ≤ m.freeblock)
  (hhi : m.freeblock ≤ FSSIZE) (hfit : (ino i).Fits)
include h hlo hhi hfit

theorem Grown.addr (hs : s ≤ NDIRECT) (h0 : (ino i).addrs s = 0) :
    Grown ino i f m { ino i with addrs := update (ino i).addrs s m.freeblock } m.freeblock
      { m with freeblock := m.freeblock + 1 } := by
  refine ⟨?_, rfl, hfit.setAddr hs (by unfold FSSIZE at hhi; omega),
    ⟨rfl, rfl, fun _ _ => rfl, id⟩, by simp only; omega, by simp only; omega⟩
  refine h.alloc hlo (i := i) (s := s) (slots_setAddr hs fun e => ⟨e ▸ h0, fun k _ => ?_⟩) ?_
    fun _ _ => rfl
  · rw [h.fresh _ le_rfl]
    exact Bytes.get_zero
  · show slot m.img (ino i) s = 0
    rw [slot_direct hs]
    exact h0

theorem Grown.refl (x : ℕ) : Grown ino i f m (ino i) x m := by
  refine ⟨?_, rfl, hfit, Later.refl m, hlo, by omega⟩
  rw [update_eq_self]
  exact h

theorem iappendIndirect_spec : Spec (iappendIndirect (ino i)) m
      (fun r m' => Grown ino i f m r (r.addrs NDIRECT) m' ∧ r.addrs NDIRECT ≠ 0) Fails := by
  have hnm : 0 < nmeta := by decide
  unfold iappendIndirect
  by_cases h0 : (ino i).addrs NDIRECT = 0
  · rw [if_pos h0]
    unfold nextBlock
    simp only [spec_bind, spec_get, spec_modify, spec_pure, update_self]
    exact ⟨Grown.addr h hlo hhi hfit le_rfl h0, by omega⟩
  · rw [if_neg h0, spec_pure]
    exact ⟨Grown.refl h hlo hhi hfit _, h0⟩

theorem iappendBlock_spec {fbn : ℕ} (hlen : m.len = FSSIZE) (hbn : fbn < MAXFILE) :
    Spec (iappendBlock i (ino i) fbn) m
      (fun r m' => Grown ino i f m r.1 r.2 m' ∧ r.2 = fileBlock m'.img r.1 fbn ∧ r.2 ≠ 0) Fails := by
  have hnm : 0 < nmeta := by decide
  unfold iappendBlock
  by_cases hd : fbn < NDIRECT
  · have hslot : fileSlot fbn = fbn := if_pos hd
    rw [if_pos hd]
    by_cases h0 : (ino i).addrs fbn = 0
    · rw [if_pos h0]
      unfold nextBlock
      simp only [spec_bind, spec_get, spec_modify, spec_pure]
      refine ⟨Grown.addr h hlo hhi hfit hd.le h0, ?_, by omega⟩
      unfold fileBlock
      rw [hslot, slot_direct hd.le]
      simp
    · rw [if_neg h0, spec_pure]
      refine ⟨Grown.refl h hlo hhi hfit _, ?_, h0⟩
      unfold fileBlock
      rw [hslot, slot_direct hd.le]
  · obtain ⟨k, rfl⟩ : ∃ k, fbn = NDIRECT + k := ⟨fbn - NDIRECT, by omega⟩
    have hk : k < NINDIRECT := by
      unfold MAXFILE at hbn
      omega
    have hslot : fileSlot (NDIRECT + k) = NDIRECT + 1 + k := by
      unfold fileSlot
      rw [if_neg hd]
      omega
    rw [if_neg hd, spec_bind]
    refine (iappendIndirect_spec h hlo hhi hfit).imp ?_
    rintro r m1 ⟨hg, hr0⟩
    rw [spec_bind, spec_rsect]
    intro hin
    rw [hg.later.len, hlen] at hin
    have hself : update ino i r i = r := update_self i r ino
    have hrange := hg.core.slots.range (i := i) (s := NDIRECT) (by
      rw [slots_eq_indirect, hself]
      exact hr0)
    rw [slots_eq_indirect, hself] at hrange
    rw [show NDIRECT + k - NDIRECT = k by omega]
    have hfile : ∀ d : ℕ → Block, fileBlock d r (NDIRECT + k) =
        (d (r.addrs NDIRECT)).get (4 * k) 4 := by
      intro d
      unfold fileBlock
      rw [hslot, slot_indirect hk, if_neg hr0]
    have hhi1 : m1.freeblock ≤ FSSIZE := by
      have := hg.hi
      omega
    by_cases h0 : (m1.img (r.addrs NDIRECT)).get (4 * k) 4 = 0
    · rw [if_pos h0]
      unfold nextBlock
      simp only [spec_bind, spec_get, spec_modify, wsect, spec_pure]
      have hb : m1.freeblock < 2 ^ 32 := by
        unfold FSSIZE at hhi1
        omega
      have hS := slots_setWord (i := i) (k := k) (b := m1.freeblock) hg.core.slots
        (by rw [hself]; exact hr0) hk hb
      rw [hself] at hS
      refine ⟨⟨?_, hg.head, hg.fits, ?_, ?_, ?_⟩, ?_, ?_⟩
      · refine hg.core.alloc hg.lo hS ?_ fun b hb => update_of_ne (Ne.symm ?_) _ _
        · show slot m1.img (update ino i r i) _ = 0
          rw [hself, slot_indirect hk, if_neg hr0]
          exact h0
        · have := hb i
          rw [slots_eq_indirect, hself] at this
          exact this hr0
      · have hnext : Later m1 { m1 with freeblock := m1.freeblock + 1 } :=
          ⟨rfl, rfl, fun _ _ => rfl, id⟩
        exact (hg.later.trans hnext).trans
          (.wsect _ (hg.later.len.trans hlen) ⟨i, .inr rfl⟩ hrange.1 hin)
      · have := hg.lo
        simp only
        omega
      · simp only
        omega
      · rw [hfile]
        simp only [update_self, Bytes.get_set_same]
        exact (Nat.mod_eq_of_lt hb).symm
      · have := hg.lo
        omega
    · rw [if_neg h0, spec_pure]
      refine ⟨⟨hg.core, hg.head, hg.fits, hg.later, hg.lo, by omega⟩, (hfile _).symm, h0⟩

/-- The loop of `iappend`, where file `i` has its bytes up to `off`. -/
theorem iappendLoop_spec {n : ℕ} (hlen : m.len = FSSIZE) (hn : p.length ≤ n) :
    Spec (iappendLoop i n (ino i) (f i).length p) m
      (fun r m' => Grown ino i (update f i (f i ++ p)) m r.1 0 m' ∧
        r.2 = (f i).length + p.length ∧ r.2 ≤ max (f i).length (MAXFILE * BSIZE)) Fails := by
  induction n generalizing m ino f p with
  | zero =>
    obtain rfl : p = [] := List.length_eq_zero_iff.mp (by omega)
    unfold iappendLoop
    rw [spec_pure, List.append_nil, update_eq_self]
    exact ⟨Grown.refl h hlo hhi hfit _, by simp, by simp⟩
  | succ n ih =>
    unfold iappendLoop
    by_cases hp : p = []
    · subst hp
      rw [if_pos rfl, spec_pure, List.append_nil, update_eq_self]
      exact ⟨Grown.refl h hlo hhi hfit _, by simp, by simp⟩
    have hpos : 0 < p.length := List.length_pos_iff.mpr hp
    set off := (f i).length with hoff
    by_cases hmax : MAXFILE ≤ off / BSIZE
    · rw [if_neg hp, if_pos hmax, spec_throw]
      trivial
    rw [if_neg hp, if_neg hmax, spec_bind]
    refine (iappendBlock_spec h hlo hhi hfit hlen (by omega)).imp ?_
    rintro ⟨r, x⟩ m1 ⟨hg, hx, hx0⟩
    simp only at hg hx hx0 ⊢
    rw [spec_bind, spec_rsect]
    intro hin
    rw [hg.later.len, hlen] at hin
    set n1 := min p.length ((off / BSIZE + 1) * BSIZE - off) with hn1
    have hself : update ino i r i = r := update_self i r ino
    have hslot : slots m1.img (update ino i r) i (fileSlot (off / BSIZE)) = x := by
      show slot m1.img (update ino i r i) _ = x
      rw [hself]
      exact hx.symm
    have hrange := hg.core.slots.range (hslot ▸ hx0)
    rw [hslot] at hrange
    have hlen1 : n1 ≤ p.length := min_le_left _ _
    have hw := hg.core.write (i := i) (p := p.take n1) (by rw [hself, ← hoff, ← hx]; exact hx0)
      (by rw [List.length_take]; unfold BSIZE at *; omega)
    rw [hself, ← hoff, ← hx] at hw
    have hoffset : off - off / BSIZE * BSIZE = off % BSIZE := by
      unfold BSIZE
      omega
    simp only [spec_bind, wsect, spec_modify, hoffset]
    set f1 := update f i (f i ++ p.take n1) with hf1
    have hf1i : f1 i = f i ++ p.take n1 := update_self i _ f
    have hlen2 : (f1 i).length = off + n1 := by
      rw [hf1i, List.length_append, List.length_take, ← hoff]
      omega
    have hlast : update f1 i (f1 i ++ p.drop n1) = update f i (f i ++ p) := by
      rw [hf1i, List.append_assoc, List.take_append_drop, hf1, update_idem]
    have hnext := hg.later.trans
      (.wsect ((m1.img x).blit (off % BSIZE) (p.take n1)) (hg.later.len.trans hlen) ⟨i, .inl rfl⟩
        hrange.1 hin)
    have hih := ih (p := p.drop n1) (m := { m1 with
        img := update m1.img x ((m1.img x).blit (off % BSIZE) (p.take n1))
        len := max m1.len (x + 1)
        writes := ⟨.data i, x, m1.img x, (m1.img x).blit (off % BSIZE) (p.take n1)⟩ :: m1.writes })
      hw hg.lo (by have := hg.hi; simp only; omega) (by rw [hself]; exact hg.fits)
      (hnext.len.trans hlen) (by rw [List.length_drop]; unfold BSIZE at *; omega)
    rw [hself, hlen2, hlast] at hih
    refine hih.imp ?_
    rintro ⟨r2, off2⟩ m2 ⟨hg2, hoff2, hle⟩
    rw [List.length_drop] at hoff2
    refine ⟨⟨?_, ?_, hg2.fits, hnext.trans hg2.later, hg2.lo, hg2.hi⟩, ?_, ?_⟩
    · have := hg2.core
      rwa [update_idem] at this
    · have h1 := hg2.head
      rw [hself, hg.head] at h1
      exact h1
    · simp only at hoff2 ⊢
      omega
    · simp only at hle ⊢
      have : (off / BSIZE + 1) * BSIZE ≤ MAXFILE * BSIZE := Nat.mul_le_mul_right _ (by omega)
      omega

end

/-! ## Between two calls of `iappend` -/

/-- The inodes on the disk. -/
def inodes (img : ℕ → Block) : ℕ → Dinode := fun i => if i < NINODES then dinode sb img i else {}

/-- `ialloc` gave out the number. -/
def Mk.Used (m : Mk) (i : ℕ) : Prop := 1 ≤ i ∧ i < m.freeinode

/-- The image so far. -/
structure Built (m : Mk) (f : ℕ → List UInt8) : Prop where
  core : Core m.img (inodes m.img) m.freeblock f
  lo : nmeta ≤ m.freeblock
  hi : m.freeblock ≤ FSSIZE
  bound : m.freeinode ≤ NINODES
  unused : ∀ i < NINODES, ¬ m.Used i → dinode sb m.img i = {}
  writes : ∀ w ∈ m.writes, w.Intact
  super : m.img 1 = sb.put fun _ => 0
  log : ∀ b, sb.logstart ≤ b → b < sb.inodestart → m.img b = fun _ => 0

structure Stable (m : Mk) (f : ℕ → List UInt8) (ty : ℕ → ℕ) : Prop extends Built m f where
  len : m.len = FSSIZE
  head : ∀ i < NINODES, (dinode sb m.img i).type = ty i ∧
    (dinode sb m.img i).nlink = (if ty i = 0 then 0 else 1) ∧
      (dinode sb m.img i).size = (f i).length

theorem Core.congr_ino (h : Core img ino fb f)
    (hi : ∀ i, (ino' i).addrs = (ino i).addrs) : Core img ino' fb f := by
  have hslot : ∀ i s, slot img (ino' i) s = slot img (ino i) s := by
    intro i s
    unfold slot
    rw [hi]
  have hS : Fs.slots img ino' = Fs.slots img ino := by
    funext i s
    exact hslot i s
  refine ⟨hS ▸ h.slots, fun b h1 h2 => hS ▸ h.cover b h1 h2, h.fresh, fun i bn hlen => ?_,
    fun i o h0 => ?_⟩
  · unfold fileBlock
    rw [hslot]
    exact h.mapped i bn hlen
  · unfold byteAt fileBlock at *
    rw [hslot] at h0 ⊢
    exact h.bytes i o h0

theorem iblock_range (hi : i < NINODES) :
    sb.inodestart ≤ sb.IBLOCK i ∧ sb.IBLOCK i < sb.bmapstart := by
  have h1 : i / IPB ≤ NINODES / IPB := Nat.div_le_div_right hi.le
  unfold Superblock.IBLOCK
  refine ⟨Nat.le_add_left _ _, ?_⟩
  show i / IPB + (2 + nlog) < 2 + nlog + (NINODES / IPB + 1)
  omega

theorem bmapstart_lt : sb.bmapstart < nmeta := by decide

theorem inodestart_lt : sb.inodestart < nmeta := by decide

theorem nmeta_lt : nmeta < FSSIZE := by decide

variable {x : Dinode}

theorem spec_winode {Q : Unit → Mk → Prop} (hi : i < NINODES) (hlen : m.len = FSSIZE)
    (h : ∀ m', m'.img = setDinode sb m.img i x → m'.len = FSSIZE → m'.freeinode = m.freeinode →
      m'.freeblock = m.freeblock → ((∀ w ∈ m.writes, w.Intact) → ∀ w ∈ m'.writes, w.Intact) →
        Q () m') : Spec (winode i x) m Q Fails := by
  have hb := iblock_range hi
  have hlt := hb.2.trans bmapstart_lt
  unfold winode
  simp only [spec_bind, spec_rsect, wsect, spec_modify]
  intro _
  refine h _ rfl ?_ rfl rfl fun hw w hmem => ?_
  · have := nmeta_lt
    show max m.len (sb.IBLOCK i + 1) = FSSIZE
    omega
  · obtain rfl | hmem := List.mem_cons.mp hmem
    · exact ⟨⟨rfl, hb⟩, fun k hk => Dinode.put_of_lt hk⟩
    · exact hw w hmem

theorem spec_rinode {Q : Dinode → Mk → Prop} (h : Q (dinode sb m.img i) m) :
    Spec (rinode i) m Q Fails := by
  unfold rinode
  simp only [spec_bind, spec_rsect, spec_pure]
  exact fun _ => h

theorem inodes_setDinode (hi : i < NINODES) (hx : x.Fits) :
    inodes (setDinode sb img i x) = update (inodes img) i x := by
  funext j
  unfold inodes
  by_cases e : j = i
  · subst e
    rw [if_pos hi, update_self, dinode_setDinode_self hx]
  · rw [update_of_ne e, dinode_setDinode_of_ne e]

theorem inodes_congr (h : ∀ b < nmeta, img' b = img b) : inodes img' = inodes img := by
  funext j
  unfold inodes
  split_ifs with hj
  · exact dinode_congr (h _ ((iblock_range hj).2.trans bmapstart_lt))
  · rfl

theorem inodes_fits (img : ℕ → Block) (i : ℕ) : (inodes img i).Fits := by
  unfold inodes
  split_ifs
  · exact dinode_fits
  · refine ⟨?_, ?_, ?_, ?_, ?_, fun _ => ?_, fun _ _ => rfl⟩ <;> norm_num

theorem Stable.put {m m1 m' : Mk} {ty ty' : ℕ → ℕ} {f' : ℕ → List UInt8}
    (h : Stable m f ty) (hx : x.Fits) (hlow : ∀ b < nmeta, m1.img b = m.img b)
    (himg : m'.img = setDinode sb m1.img i x) (hlen : m'.len = FSSIZE)
    (hlo : nmeta ≤ m'.freeblock) (hhi : m'.freeblock ≤ FSSIZE)
    (hcore : Core m1.img (update (inodes m.img) i x) m'.freeblock f')
    (hhead : x.type = ty' i ∧ x.nlink = (if ty' i = 0 then 0 else 1) ∧ x.size = (f' i).length)
    (hsame : ∀ j, j ≠ i → ty' j = ty j ∧ f' j = f j) (hused : m'.Used i)
    (hfi : m.freeinode ≤ m'.freeinode) (hbound : m'.freeinode ≤ NINODES)
    (hw : ∀ w ∈ m'.writes, w.Intact) : Stable m' f' ty' := by
  have hi : i < NINODES := hused.2.trans_le hbound
  have hinos : inodes m'.img = update (inodes m.img) i x := by
    rw [himg, inodes_setDinode hi hx, inodes_congr hlow]
  have hdin : ∀ j < NINODES, dinode sb m'.img j = if j = i then x else dinode sb m.img j := by
    intro j hj
    rw [show dinode sb m'.img j = inodes m'.img j from (if_pos hj).symm, hinos, update_apply]
    split_ifs
    · rfl
    · exact if_pos hj
  -- outside the inode blocks
  have hother : ∀ b, b < sb.inodestart ∨ sb.bmapstart ≤ b → m'.img b = m1.img b := by
    intro b hb
    have := iblock_range hi
    rw [himg, setDinode_of_ne (by omega)]
  refine ⟨⟨?_, hlo, hhi, hbound, fun j hj hn => ?_, hw, ?_, fun b hb1 hb2 => ?_⟩, hlen,
    fun j hj => ?_⟩
  · rw [hinos]
    refine hcore.congr (fun b hb => hother b (.inr ?_)) hlo
    have := bmapstart_lt
    omega
  · have e : j ≠ i := fun e => hn (e ▸ hused)
    rw [hdin j hj, if_neg e]
    exact h.unused j hj fun hu => hn ⟨hu.1, hu.2.trans_le hfi⟩
  · rw [hother 1 (.inl (by decide)), hlow 1 (by decide)]
    exact h.super
  · rw [hother b (.inl hb2), hlow b (hb2.trans inodestart_lt)]
    exact h.log b hb1 hb2
  · rw [hdin j hj]
    by_cases e : j = i
    · subst e
      rw [if_pos rfl]
      exact hhead
    · rw [if_neg e, (hsame j e).1, (hsame j e).2]
      exact h.head j hj

variable {ty : ℕ → ℕ}

section

variable (h : Stable m f ty)
include h

/-- `iappend` adds the bytes to the file. -/
theorem iappend_spec (hused : m.Used i) :
    Spec (iappend i p) m (fun _ m' => Stable m' (update f i (f i ++ p)) ty ∧
      m'.freeinode = m.freeinode) Fails := by
  have hi : i < NINODES := hused.2.trans_le h.bound
  obtain ⟨hty, hnl, hsz⟩ := h.head i hi
  have hino : dinode sb m.img i = inodes m.img i := (if_pos hi).symm
  unfold iappend
  rw [spec_bind]
  refine spec_rinode ?_
  rw [spec_bind, hsz, hino]
  refine (iappendLoop_spec h.core h.lo h.hi (inodes_fits _ _) h.len le_rfl).imp ?_
  rintro ⟨r, off⟩ m1 ⟨hg, hoff, hle⟩
  simp only at hg hoff hle ⊢
  have hfit : ({ r with size := off } : Dinode).Fits := by
    have hf := hg.fits
    refine ⟨hf.type, hf.major, hf.minor, hf.nlink, ?_, hf.addrs, hf.rest⟩
    have h32 : (dinode sb m.img i).size < 2 ^ 32 := dinode_fits.size
    rw [hsz] at h32
    have : MAXFILE * BSIZE < 2 ^ 32 := by decide
    show off < 2 ^ 32
    omega
  have hhi : m1.freeblock ≤ FSSIZE := by
    have h1 := hg.hi
    have h2 : 1 ≤ FSSIZE := by decide
    omega
  refine spec_winode hi (hg.later.len.trans h.len) fun m' himg hlen' hfi hfb hw => ?_
  have hfi' := hfi.trans hg.later.freeinode
  refine ⟨h.put hfit hg.later.low himg hlen' (hfb ▸ hg.lo) (hfb ▸ hhi) ?_ ⟨?_, ?_, ?_⟩ ?_
    ⟨hused.1, hfi' ▸ hused.2⟩ hfi'.ge (hfi' ▸ h.bound) (hw (hg.later.writes h.writes)), hfi'⟩
  · rw [hfb]
    refine hg.core.congr_ino fun j => ?_
    by_cases e : j = i
    · subst e
      rw [update_self, update_self]
    · rw [update_of_ne e, update_of_ne e]
  · show r.type = ty i
    rw [hg.head, ← hino]
    exact hty
  · show r.nlink = _
    rw [hg.head, ← hino]
    exact hnl
  · rw [update_self, List.length_append]
    exact hoff
  · exact fun j e => ⟨rfl, update_of_ne e _ _⟩

theorem Stable.nil (h1 : m.freeinode ≤ i) (h2 : i < NINODES) : f i = [] ∧ ty i = 0 := by
  obtain ⟨hty, -, hsz⟩ := h.head i h2
  rw [h.unused i h2 fun hu => absurd hu.2 (by omega)] at hty hsz
  exact ⟨List.length_eq_zero_iff.mp hsz.symm, hty.symm⟩

theorem ialloc_spec {type : ℕ} (hpos : 1 ≤ m.freeinode) (hfree : m.freeinode < NINODES)
    (h0 : type ≠ 0) (hty : type < 2 ^ 16) :
    Spec (ialloc type) m (fun i m' => i = m.freeinode ∧ m'.freeinode = m.freeinode + 1 ∧
      Stable m' f (update ty m.freeinode type)) Fails := by
  have hfit : ({ type := type, nlink := 1 } : Dinode).Fits :=
    ⟨hty, by norm_num, by norm_num, by norm_num, by norm_num, fun _ => by norm_num, fun _ _ => rfl⟩
  have hold : inodes m.img m.freeinode = {} := 
    (if_pos hfree).trans (h.unused _ hfree fun hu => absurd hu.2 (by omega))
  obtain ⟨hnil, -⟩ := h.nil le_rfl hfree
  unfold ialloc
  simp only [spec_bind, spec_get, spec_modify, spec_pure]
  refine spec_winode hfree h.len fun m' himg hlen hfi hfb hw => ⟨trivial, hfi, ?_⟩
  have hfi' : m'.freeinode = m.freeinode + 1 := hfi
  have hfb' : m'.freeblock = m.freeblock := hfb
  have hlow : ∀ b < nmeta, m.img b = m.img b := fun _ _ => rfl
  refine h.put hfit hlow himg hlen (hfb' ▸ h.lo) (hfb' ▸ h.hi) ?_
    ⟨?_, ?_, ?_⟩ ?_ ⟨hpos, by omega⟩ (by omega) (by omega) (hw h.writes)
  · rw [hfb']
    refine h.core.congr_ino fun j => ?_
    by_cases e : j = m.freeinode
    · subst e
      rw [update_self, hold]
    · rw [update_of_ne e]
  · rw [update_self]
  · rw [update_self, if_neg h0]
  · rw [hnil]
    rfl
  · exact fun j e => ⟨update_of_ne e _ _, rfl⟩

/-! ## The files -/

theorem appendAll_spec {bufs : List (List UInt8)} (hused : m.Used i) :
    Spec (appendAll i bufs) m (fun _ m' => Stable m' (update f i (f i ++ bufs.flatten)) ty ∧
      m'.freeinode = m.freeinode) Fails := by
  induction bufs generalizing m f with
  | nil =>
    unfold appendAll
    rw [spec_pure, List.flatten_nil, List.append_nil, update_eq_self]
    exact ⟨h, rfl⟩
  | cons buf bufs ih =>
    unfold appendAll
    rw [spec_bind]
    refine (iappend_spec h hused).imp ?_
    rintro - m1 ⟨h1, hfi⟩
    refine (ih h1 ⟨hused.1, hfi ▸ hused.2⟩).imp ?_
    rintro - m2 ⟨h2, hfi2⟩
    rw [update_self, update_idem, List.append_assoc] at h2
    exact ⟨h2, hfi2.trans hfi⟩

/-- The bytes of a host file. -/
def HostFile.data (x : HostFile) : List UInt8 := (x.reads.getD []).flatten

/-- The contents of the files after the host files from inode number `n` on have been added. -/
def added (f : ℕ → List UInt8) (n : ℕ) : List HostFile → ℕ → List UInt8
  | [] => f
  | x :: xs =>
    added (update (update f ROOTINO (f ROOTINO ++ dirent n (shortname x.path))) n
      x.data) (n + 1) xs

/-- Their types. -/
def addedType (ty : ℕ → ℕ) (n : ℕ) : List HostFile → ℕ → ℕ
  | [] => ty
  | _ :: xs => addedType (update ty n T_FILE) (n + 1) xs

theorem addFile_spec {x : HostFile} (hroot : ROOTINO < m.freeinode)
    (hfree : m.freeinode < NINODES) :
    Spec (addFile ROOTINO x) m (fun _ m' => m'.freeinode = m.freeinode + 1 ∧
      Stable m' (added f m.freeinode [x]) (addedType ty m.freeinode [x])) Fails := by
  unfold addFile
  split_ifs
  · rw [spec_throw]
    trivial
  cases hr : x.reads with
  | none =>
    simp only [spec_throw]
    trivial
  | some bufs =>
    simp only [spec_bind]
    have hpos : 1 ≤ m.freeinode := by omega
    refine (ialloc_spec h hpos hfree (by decide) (by decide)).imp ?_
    rintro i m1 ⟨rfl, hfi, h1⟩
    refine (iappend_spec h1 ⟨by decide, by omega⟩).imp ?_
    rintro - m2 ⟨h2, hfi2⟩
    refine (appendAll_spec h2 ⟨hpos, by omega⟩).imp ?_
    rintro - m3 ⟨h3, hfi3⟩
    refine ⟨by omega, ?_⟩
    obtain ⟨hnil, -⟩ := h.nil le_rfl hfree
    rw [update_of_ne (by omega), hnil, List.nil_append] at h3
    simpa [added, addedType, HostFile.data, hr] using h3

theorem addFiles_spec {xs : List HostFile} (hroot : ROOTINO < m.freeinode)
    (hfree : m.freeinode + xs.length ≤ NINODES) :
    Spec (addFiles ROOTINO xs) m (fun _ m' => m'.freeinode = m.freeinode + xs.length ∧
      Stable m' (added f m.freeinode xs) (addedType ty m.freeinode xs)) Fails := by
  induction xs generalizing m f ty with
  | nil =>
    unfold addFiles
    rw [spec_pure]
    exact ⟨rfl, h⟩
  | cons x xs ih =>
    rw [List.length_cons] at hfree ⊢
    unfold addFiles
    rw [spec_bind]
    refine (addFile_spec h hroot (by omega)).imp ?_
    rintro - m1 ⟨hfi, h1⟩
    refine (ih h1 (by omega) (by omega)).imp ?_
    rintro - m2 ⟨hfi2, h2⟩
    refine ⟨by omega, ?_⟩
    rw [hfi] at h2
    exact h2

end

theorem zeroSectors_spec (n sec : ℕ) (himg : m.img = fun _ _ => 0) (hlen : m.len = sec)
    (hw : ∀ w ∈ m.writes, w.Intact) :
    Spec (zeroSectors n sec) m (fun _ m' => m'.img = (fun _ _ => 0) ∧ m'.len = sec + n ∧
      m'.freeinode = m.freeinode ∧ m'.freeblock = m.freeblock ∧ ∀ w ∈ m'.writes, w.Intact)
      Fails := by
  induction n generalizing m sec with
  | zero =>
    unfold zeroSectors
    rw [spec_pure]
    exact ⟨himg, hlen, rfl, rfl, hw⟩
  | succ n ih =>
    unfold zeroSectors
    simp only [spec_bind, wsect, spec_modify]
    refine (ih _ ?_ ?_ ?_).imp ?_
    · rw [himg]
      exact update_eq_self sec _
    · simp only
      omega
    · intro w hmem
      obtain rfl | hmem := List.mem_cons.mp hmem
      · trivial
      · exact hw w hmem
    · rintro - m' ⟨h1, h2, h3⟩
      exact ⟨h1, by omega, h3⟩

/-- The entries that every root directory starts with. -/
def dots : List UInt8 := dirent ROOTINO [dot] ++ dirent ROOTINO [dot, dot]

theorem dinode_zero {img : ℕ → Block} (h : img (sb.IBLOCK i) = fun _ => 0) :
    dinode sb img i = {} := by
  unfold dinode
  rw [h]
  unfold Dinode.get
  simp only [Bytes.get_zero, ite_self]

theorem stable_empty (himg : m.img = update (fun _ _ => 0) 1 (sb.put fun _ => 0))
    (hlen : m.len = FSSIZE) (hfi : m.freeinode = 1) (hfb : m.freeblock = nmeta)
    (hw : ∀ w ∈ m.writes, w.Intact) : Stable m (fun _ => []) (fun _ => 0) := by
  have hzero : ∀ b, b ≠ 1 → m.img b = fun _ => 0 := by
    intro b hb
    rw [himg, update_of_ne hb]
  have hdin : ∀ i, dinode sb m.img i = {} := by
    refine fun i => dinode_zero (hzero _ ?_)
    have h1 : 1 < sb.inodestart := by decide
    exact (h1.trans_le (Nat.le_add_left _ _)).ne'
  have hino : inodes m.img = fun _ => {} := by
    funext i
    unfold inodes
    rw [hdin, ite_self]
  have hslot : ∀ i s, slots m.img (inodes m.img) i s = 0 := by
    intro i s
    unfold slots slot
    simp [hino]
  refine ⟨⟨⟨⟨fun h => absurd (hslot _ _) h, fun h => absurd (hslot _ _) h⟩, fun b h1 h2 => ?_,
    fun b hb => hzero b ?_, fun i bn h => by simp at h, fun i o h => absurd (hslot _ _) h⟩,
    hfb.ge, by rw [hfb]; exact nmeta_lt.le, by rw [hfi]; decide, fun i _ _ => hdin i,
    hw, ?_, fun b h1 _ => hzero b ?_⟩, hlen, fun i _ => ?_⟩
  · omega
  · have : 1 < nmeta := by decide
    omega
  · rw [himg, update_self]
  · have : 1 < sb.logstart := by decide
    omega
  · rw [hdin]
    exact ⟨rfl, rfl, rfl⟩

theorem start_spec : Spec start {} (fun r m => r = ROOTINO ∧ m.freeinode = 2 ∧
    Stable m (update (fun _ => []) ROOTINO dots)
      (update (fun _ => 0) ROOTINO T_DIR)) Fails := by
  unfold start
  simp only [spec_bind, spec_modify]
  refine (zeroSectors_spec FSSIZE 0 (by rfl) (by rfl) (by simp)).imp ?_
  rintro - m1 ⟨himg, hlen, hfi, hfb, hw⟩
  simp only [wsect, spec_modify]
  have h1 : Stable { m1 with
      img := update m1.img 1 (sb.put fun _ => 0)
      len := max m1.len (1 + 1)
      writes := ⟨.super, 1, m1.img 1, sb.put fun _ => 0⟩ :: m1.writes } (fun _ => [])
      (fun _ => 0) := by
    refine stable_empty (by rw [himg]) ?_ hfi hfb fun w hmem => ?_
    · have : 2 ≤ FSSIZE := by decide
      show max m1.len (1 + 1) = FSSIZE
      omega
    · obtain rfl | hmem := List.mem_cons.mp hmem
      · trivial
      · exact hw w hmem
  have hfree : m1.freeinode < NINODES := by
    rw [hfi]
    decide
  refine (ialloc_spec h1 hfi.ge hfree (by decide) (by decide)).imp ?_
  rintro i m2 ⟨rfl, hfi2, h2⟩
  simp only [hfi] at hfi2 h2 ⊢
  rw [if_neg (show ¬ 1 ≠ ROOTINO by decide), spec_bind]
  refine (iappend_spec h2 ⟨by decide, by omega⟩).imp ?_
  rintro - m3 ⟨h3, hfi3⟩
  rw [spec_bind]
  refine (iappend_spec h3 ⟨by decide, by omega⟩).imp ?_
  rintro - m4 ⟨h4, hfi4⟩
  rw [spec_pure]
  refine ⟨rfl, by omega, ?_⟩
  rw [update_self, update_idem, List.nil_append] at h4
  exact h4

/-- The finished image. -/
structure Image (m : Mk) (f : ℕ → List UInt8) (ty : ℕ → ℕ) : Prop extends Built m f where
  head : ∀ i < NINODES, (dinode sb m.img i).type = ty i ∧
    (dinode sb m.img i).nlink = (if ty i = 0 then 0 else 1) ∧ (dinode sb m.img i).size =
        if i = ROOTINO then ((f i).length / BSIZE + 1) * BSIZE else (f i).length
  bitmap : m.img sb.bmapstart = usedBits m.freeblock

theorem finish_spec (h : Stable m f ty) (hused : m.Used ROOTINO)
    (hlen : (f ROOTINO).length < 2 ^ 31) :
    Spec (finish ROOTINO) m (fun _ m' => m'.freeinode = m.freeinode ∧ Image m' f ty) Fails := by
  have hroot : ROOTINO < NINODES := by decide
  obtain ⟨hty, hnl, hsz⟩ := h.head ROOTINO hroot
  unfold finish
  rw [spec_bind]
  refine spec_rinode ?_
  rw [spec_bind]
  set x : Dinode := { dinode sb m.img ROOTINO with
    size := ((dinode sb m.img ROOTINO).size / BSIZE + 1) * BSIZE } with hx
  have hfit : x.Fits := by
    have hf : (dinode sb m.img ROOTINO).Fits := dinode_fits
    refine ⟨hf.type, hf.major, hf.minor, hf.nlink, ?_, hf.addrs, hf.rest⟩
    show ((dinode sb m.img ROOTINO).size / BSIZE + 1) * BSIZE < 2 ^ 32
    rw [hsz]
    unfold BSIZE
    omega
  refine spec_winode hroot h.len fun m1 himg hlen1 hfi hfb hw => ?_
  have hinos : inodes m1.img = update (inodes m.img) ROOTINO x := by
    rw [himg, inodes_setDinode hroot hfit]
  have hother : ∀ b, b < sb.inodestart ∨ sb.bmapstart ≤ b → m1.img b = m.img b := by
    intro b hb
    have := iblock_range hroot
    rw [himg, setDinode_of_ne (by omega)]
  have hcore : Core m1.img (inodes m1.img) m1.freeblock f := by
    rw [hinos, hfb]
    refine (h.core.congr_ino fun j => ?_).congr (fun b hb => hother b (.inr ?_)) h.lo
    · by_cases e : j = ROOTINO
      · subst e
        rw [update_self, show inodes m.img ROOTINO = _ from if_pos hroot]
      · rw [update_of_ne e]
    · have := bmapstart_lt
      omega
  simp only [spec_bind, spec_get, balloc]
  split_ifs
  · rw [spec_throw]
    trivial
  simp only [wsect, spec_modify]
  have hlow : ∀ b, b ≠ sb.bmapstart →
      update m1.img sb.bmapstart (usedBits m1.freeblock) b = m1.img b :=
    fun b hb => update_of_ne hb _ _
  have hinos' : inodes (update m1.img sb.bmapstart (usedBits m1.freeblock)) = inodes m1.img := by
    funext j
    unfold inodes
    split_ifs with hj
    · exact dinode_congr (hlow _ (iblock_range hj).2.ne)
    · rfl
  have hd : ∀ i < NINODES, dinode sb (update m1.img sb.bmapstart (usedBits m1.freeblock))
      i = update (inodes m.img) ROOTINO x i := by
    intro i hi
    rw [← hinos, ← hinos']
    exact (if_pos hi).symm
  refine ⟨hfi, ⟨⟨?_, by rw [hfb]; exact h.lo, by rw [hfb]; exact h.hi, by rw [hfi]; exact h.bound,
    fun i hi hn => ?_, fun w hmem => ?_, ?_, fun b hb1 hb2 => ?_⟩, fun i hi => ?_, ?_⟩⟩
  · show Core (update m1.img sb.bmapstart (usedBits m1.freeblock)) (inodes _) m1.freeblock f
    rw [hinos']
    refine hcore.congr (fun b hb => hlow b ?_) (by rw [hfb]; exact h.lo)
    have := bmapstart_lt
    omega
  · have hn' : ¬ m.Used i := fun hu => hn ⟨hu.1, hu.2.trans_eq hfi.symm⟩
    have e : i ≠ ROOTINO := fun e => hn' (e ▸ hused)
    refine (hd i hi).trans ?_
    rw [update_of_ne e, show inodes m.img i = _ from if_pos hi]
    exact h.unused i hi hn'
  · obtain rfl | hmem := List.mem_cons.mp hmem
    · trivial
    · exact hw h.writes w hmem
  · show update m1.img sb.bmapstart (usedBits m1.freeblock) 1 = _
    rw [hlow 1 (by decide), hother 1 (.inl (by decide))]
    exact h.super
  · show update m1.img sb.bmapstart (usedBits m1.freeblock) b = _
    have : sb.inodestart ≤ sb.bmapstart := by decide
    rw [hlow b (by omega), hother b (.inl hb2)]
    exact h.log b hb1 hb2
  · show (dinode sb (update m1.img sb.bmapstart (usedBits m1.freeblock)) i).type = _ ∧ _
    rw [hd i hi]
    by_cases e : i = ROOTINO
    · subst e
      rw [update_self, if_pos rfl, ← hsz]
      exact ⟨hty, hnl, rfl⟩
    · rw [update_of_ne e, if_neg e, show inodes m.img i = _ from if_pos hi]
      exact h.head i hi
  · show update m1.img sb.bmapstart (usedBits m1.freeblock) sb.bmapstart = _
    rw [update_self]

/-- The contents and types after `mkfs` with the host files `xs`. -/
def finalFile (xs : List HostFile) : ℕ → List UInt8 :=
  added (update (fun _ => []) ROOTINO dots) 2 xs

def finalType (xs : List HostFile) : ℕ → ℕ :=
  addedType (update (fun _ => 0) ROOTINO T_DIR) 2 xs

/-- The directory entries of the host files. -/
def entries (n : ℕ) : List HostFile → List UInt8
  | [] => []
  | x :: xs => dirent n (shortname x.path) ++ entries (n + 1) xs

section Added

variable {n : ℕ} {xs : List HostFile}

theorem added_root (hn : ROOTINO < n) : added f n xs ROOTINO = f ROOTINO ++ entries n xs := by
  induction xs generalizing f n with
  | nil => simp [added, entries]
  | cons x xs ih =>
    unfold added entries
    rw [ih (by omega), update_of_ne (by omega), update_self, List.append_assoc]

theorem added_of_lt (hi : i < n) (hr : i ≠ ROOTINO) : added f n xs i = f i := by
  induction xs generalizing f n with
  | nil => rfl
  | cons x xs ih =>
    unfold added
    rw [ih (by omega), update_of_ne (by omega), update_of_ne hr]

theorem added_file (hn : ROOTINO < n) {k : ℕ} (hk : k < xs.length) :
    added f n xs (n + k) = xs[k].data := by
  induction xs generalizing f n k with
  | nil => simp at hk
  | cons x xs ih =>
    unfold added
    cases k with
    | zero =>
      rw [added_of_lt (by omega) (by omega)]
      exact update_self _ _ _
    | succ k =>
      rw [show n + (k + 1) = n + 1 + k by omega, ih (by omega) (by simpa using hk)]
      rfl

theorem addedType_of_lt (hi : i < n) : addedType ty n xs i = ty i := by
  induction xs generalizing ty n with
  | nil => rfl
  | cons x xs ih =>
    unfold addedType
    rw [ih (by omega), update_of_ne (by omega)]

theorem addedType_file {k : ℕ} (hk : k < xs.length) : addedType ty n xs (n + k) = T_FILE := by
  induction xs generalizing ty n k with
  | nil => simp at hk
  | cons x xs ih =>
    unfold addedType
    cases k with
    | zero =>
      rw [addedType_of_lt (by omega)]
      exact update_self _ _ _
    | succ k =>
      rw [show n + (k + 1) = n + 1 + k by omega]
      exact ih (by simpa using hk)

theorem entries_length : (entries n xs).length = 16 * xs.length := by
  induction xs generalizing n with
  | nil => rfl
  | cons x xs ih =>
    unfold entries
    rw [List.length_append, dirent_length, ih, List.length_cons]
    omega

end Added

theorem finalFile_root (xs : List HostFile) : finalFile xs ROOTINO = dots ++ entries 2 xs := by
  unfold finalFile
  rw [added_root (by decide), update_self]

theorem main_spec {xs : List HostFile} (hn : xs.length + 2 ≤ NINODES) :
    Spec (main xs) {} (fun _ m => m.freeinode = xs.length + 2 ∧
      Image m (finalFile xs) (finalType xs)) Fails := by
  unfold main
  rw [spec_bind]
  refine start_spec.imp ?_
  rintro _ m1 ⟨rfl, hfi, h1⟩
  rw [spec_bind]
  refine (addFiles_spec h1 (by rw [hfi]; decide) (by omega)).imp ?_
  rintro - m2 ⟨hfi2, h2⟩
  rw [hfi] at h2
  refine (finish_spec h2 ⟨le_rfl, ?_⟩ ?_).imp ?_
  · show 1 < m2.freeinode
    omega
  · show (finalFile xs ROOTINO).length < 2 ^ 31
    rw [finalFile_root, List.length_append, entries_length, dots, List.length_append, dirent_length,
      dirent_length]
    unfold NINODES at hn
    omega
  · rintro - m3 ⟨hfi3, h3⟩
    exact ⟨by omega, h3⟩

theorem main_of_mkfs {xs : List HostFile} (h : mkfs xs = .ok m) : main xs {} = .ok ((), m) := by
  unfold mkfs at h
  cases hm : main xs {} with
  | error e =>
    rw [hm] at h
    cases h
  | ok r =>
    rw [hm] at h
    cases h
    rfl

/-- What `mkfs` writes, if it ends without an error. -/
theorem mkfs_image {xs : List HostFile} (hn : xs.length + 2 ≤ NINODES) (h : mkfs xs = .ok m) :
    m.freeinode = xs.length + 2 ∧ Image m (finalFile xs) (finalType xs) :=
  (main_spec hn).of_ok (main_of_mkfs h)

end TatakOS.Fs.Mkfs
