import TatakOS.Fs.Consistent

/-!
# Writing files

`writei` takes the source block by block. A round that copies all its bytes is logged and counted
(`Writes`). A round whose copy fails has changed the buffer as far as the copy got; it is neither
logged nor counted, and the loop ends (`leftover`).
-/

namespace TatakOS.Fs

open Function

variable {s s' s1 s2 : State} {V V' V1 V2 : ℕ → Dinode} {E : Panic × State → Prop}
variable {ip : Ip} {f : ℕ → UInt8} {off m n tot : ℕ}

/-! ## The source -/

/-- The byte at address `a`, 0 if the page is not mapped. -/
def userByte (um : UserMem) (a : ℕ) : UInt8 :=
  match um (a / PGSIZE) with
  | none => 0
  | some page => page (a % PGSIZE)

/-- Byte `j` of the source. -/
def Mem.byte : Mem → ℕ → UInt8
  | .kernel p, j => p.getD j 0
  | .user um va, j => userByte um (va + j)

/-- In the kernel there are `n` bytes; a user address may be anything. -/
def Mem.Holds : Mem → ℕ → Prop
  | .kernel p, n => n ≤ p.length
  | .user _ _, _ => True

/-- How many of the `n` bytes from address `va` on stand before the first that is not mapped. -/
def mappedBytes (um : UserMem) (va : ℕ) : ℕ → ℕ
  | 0 => 0
  | n + 1 => if (um (va / PGSIZE)).isSome then mappedBytes um (va + 1) n + 1 else 0

/-- How many of the first `n` bytes of the source stand before the first that cannot be read. -/
def Mem.reach : Mem → ℕ → ℕ
  | .kernel _, n => n
  | .user um va, n => mappedBytes um va n

/-- How many of `n` bytes are in rounds that copy all of theirs, if the first goes to offset `off`. A
round ends where a block does. -/
def Mem.counted (src : Mem) (off n : ℕ) : ℕ :=
  if src.reach n = n then n else (off + src.reach n) / BSIZE * BSIZE - off

section Reach

variable {um : UserMem} {va c : ℕ}

theorem mappedBytes_eq_iff : mappedBytes um va n = c ↔ c ≤ n ∧
    (∀ j < c, (um ((va + j) / PGSIZE)).isSome = true) ∧
    (c < n → um ((va + c) / PGSIZE) = none) := by
  induction n generalizing va c with
  | zero =>
    simp only [mappedBytes, Nat.le_zero]
    refine ⟨?_, fun h => h.1.symm⟩
    rintro rfl
    exact ⟨rfl, fun _ hj => absurd hj (Nat.not_lt_zero _), fun h => absurd h (lt_irrefl 0)⟩
  | succ n ih =>
    unfold mappedBytes
    split_ifs with hm
    · cases c with
      | zero => simp [Option.isSome_iff_ne_none.mp hm]
      | succ c =>
        rw [Nat.add_right_cancel_iff, ih]
        have hadr : ∀ j, va + 1 + j = va + (j + 1) := fun j => by omega
        simp only [hadr, Nat.add_le_add_iff_right, Nat.add_lt_add_iff_right]
        refine and_congr_right fun _ => and_congr_left fun _ => ⟨fun h j hj => ?_, fun h j hj => ?_⟩
        · cases j with
          | zero => exact hm
          | succ j => exact h j (by omega)
        · exact h (j + 1) (by omega)
    · rw [Bool.not_eq_true, Option.isSome_eq_false_iff, Option.isNone_iff_eq_none] at hm
      constructor
      · rintro rfl
        exact ⟨Nat.zero_le _, fun _ hj => absurd hj (Nat.not_lt_zero _), fun _ => hm⟩
      · rintro ⟨-, h, -⟩
        by_contra hc
        have := h 0 (by omega)
        rw [Nat.add_zero, hm] at this
        cases this

theorem mappedBytes_le : mappedBytes um va n ≤ n := (mappedBytes_eq_iff.mp rfl).1

/-- The bytes from the one at `tot` on, if those before it are mapped. -/
theorem mappedBytes_from (htot : tot ≤ mappedBytes um va n) (hm : tot + m ≤ n) :
    mappedBytes um (va + tot) m = min m (mappedBytes um va n - tot) := by
  obtain ⟨hle, hmapped, hstop⟩ := mappedBytes_eq_iff.mp (rfl : mappedBytes um va n = _)
  refine mappedBytes_eq_iff.mpr ⟨by omega, fun j hj => ?_, fun hlt => ?_⟩
  · rw [Nat.add_assoc]
    exact hmapped _ (by omega)
  · rw [show va + tot + min m (mappedBytes um va n - tot) = va + mappedBytes um va n by omega]
    exact hstop (by omega)

theorem Mem.reach_le (src : Mem) (n : ℕ) : src.reach n ≤ n := by
  cases src with
  | kernel p => exact le_rfl
  | user um va => exact mappedBytes_le

theorem Mem.counted_le_reach (src : Mem) (off n : ℕ) : src.counted off n ≤ src.reach n := by
  unfold Mem.counted
  split_ifs with h
  · exact h.ge
  · have := Nat.div_mul_le_self (off + src.reach n) BSIZE
    omega

/-- The round at byte `tot` fails, and the ones before it end where its block starts. -/
theorem Mem.counted_eq_of_stop {src : Mem} (hround : tot = 0 ∨ (off + tot) % BSIZE = 0)
    (hm : m ≤ BSIZE - (off + tot) % BSIZE) (hn : tot + m ≤ n) (htot : tot ≤ src.reach n)
    (hlt : src.reach n < tot + m) : src.counted off n = tot := by
  unfold Mem.counted
  rw [if_neg (by omega)]
  have hdiv : (off + src.reach n) / BSIZE = (off + tot) / BSIZE := by
    unfold BSIZE at *
    omega
  have hpos := Nat.div_add_mod' (off + tot) BSIZE
  rw [hdiv]
  omega

theorem copyinLoop_eq {k len : ℕ} (hk : len ≤ k) : copyinLoop um k va len =
      ((List.range (mappedBytes um va len)).map fun j => userByte um (va + j),
        decide (mappedBytes um va len = len)) := by
  induction k generalizing va len with
  | zero =>
    rw [show len = 0 by omega]
    rfl
  | succ k ih =>
    unfold copyinLoop
    by_cases h0 : len = 0
    · simp [h0, mappedBytes]
    · rw [if_neg h0]
      cases hp : um (va / PGSIZE) with
      | none =>
        have hnone : mappedBytes um va len = 0 :=
          mappedBytes_eq_iff.mpr ⟨Nat.zero_le _, fun _ hj => absurd hj (Nat.not_lt_zero _),
            fun _ => hp⟩
        rw [hnone, decide_eq_false (Ne.symm h0)]
        rfl
      | some page =>
        dsimp only
        have hmod : va % PGSIZE < PGSIZE := Nat.mod_lt _ (by decide)
        set n := min len (PGSIZE - va % PGSIZE) with hn
        have hdiv : ∀ j < n, (va + j) / PGSIZE = va / PGSIZE := by
          intro j hj
          unfold PGSIZE at *
          omega
        have hnext : (va / PGSIZE + 1) * PGSIZE = va + n ∨ n = len := by
          have := Nat.div_add_mod' va PGSIZE
          rw [Nat.add_mul, Nat.one_mul]
          omega
        have hfirst : n ≤ mappedBytes um va len := by
          obtain ⟨-, -, hstop⟩ := mappedBytes_eq_iff.mp (rfl : mappedBytes um va len = _)
          by_contra hlt
          rw [hdiv _ (by omega), hp] at hstop
          cases hstop (by omega)
        have hle : mappedBytes um va len ≤ len := mappedBytes_le
        have hrest : mappedBytes um ((va / PGSIZE + 1) * PGSIZE) (len - n) =
            mappedBytes um va len - n := by
          obtain hnext | hlen := hnext
          · rw [hnext, mappedBytes_from (n := len) hfirst (by omega)]
            omega
          · rw [hlen, Nat.sub_self]
            simp only [mappedBytes]
            omega
        have hbytes : page.slice (va % PGSIZE) n = (List.range n).map fun j => userByte um (va + j) := by
          unfold Bytes.slice
          refine List.map_congr_left fun j hj => ?_
          have hj' := List.mem_range.mp hj
          have hrem : (va + j) % PGSIZE = va % PGSIZE + j := by
            unfold PGSIZE at *
            omega
          unfold userByte
          rw [hdiv j hj', hrem, hp]
        have hmore : ((List.range (mappedBytes um va len - n)).map fun j =>
            userByte um ((va / PGSIZE + 1) * PGSIZE + j)) =
            (List.range (mappedBytes um va len - n)).map fun j => userByte um (va + (n + j)) := by
          refine List.map_congr_left fun j hj => ?_
          have hj' := List.mem_range.mp hj
          rw [← Nat.add_assoc]
          congr 2
          omega
        rw [ih (by omega), hrest, hbytes, hmore, Prod.mk.injEq]
        refine ⟨?_, ?_⟩
        · rw [← Nat.add_sub_cancel' hfirst, List.range_add, List.map_append, List.map_map,
            Nat.add_sub_cancel_left]
          rfl
        · rw [decide_eq_decide]
          omega

end Reach

/-- A copy takes the bytes up to the first that is not there. -/
theorem eitherCopyin_eq {src : Mem} (hsrc : src.Holds n) (htot : tot ≤ src.reach n)
    (hm : tot + m ≤ n) : eitherCopyin src tot m =
      ((List.range (min m (src.reach n - tot))).map fun j => src.byte (tot + j),
        decide (tot + m ≤ src.reach n)) := by
  cases src with
  | kernel p =>
    have hlen : n ≤ p.length := hsrc
    have hmin : min m ((Mem.kernel p).reach n - tot) = m := by
      show min m (n - tot) = m
      omega
    rw [hmin]
    refine Prod.ext ?_ (decide_eq_true hm).symm
    refine List.ext_getElem (by simp [eitherCopyin]; omega) fun j h1 h2 => ?_
    have hj : tot + j < p.length := by
      simp at h2
      omega
    simp [eitherCopyin, Mem.byte, List.getElem?_eq_getElem hj]
  | user um va =>
    have hfrom : mappedBytes um (va + tot) m = min m ((Mem.user um va).reach n - tot) :=
      mappedBytes_from htot hm
    show copyinLoop um m (va + tot) m = _
    rw [copyinLoop_eq le_rfl, hfrom]
    refine Prod.ext ?_ (decide_eq_decide.mpr ?_)
    · simp only [Mem.byte, Nat.add_assoc]
    · omega

/-! ## The loop -/

/-- `n` bytes from offset `off` on are those of `f`, and their blocks are in the log. -/
structure Writes (ip : Ip) (f : ℕ → UInt8) (off n : ℕ) (s : State) (V : ℕ → Dinode) (s' : State)
    (V' : ℕ → Dinode) : Prop extends Extends ip s V s' V' where
  content : ∀ j o, content s'.blk (V' j) o =
    if j = (s.itable ip).inum ∧ off ≤ o ∧ o < off + n then f o else content s.blk (V j) o
  mapped : ∀ o, off ≤ o → o < off + n → fileBlock s'.blk (V' (s.itable ip).inum) (o / BSIZE) ≠ 0
  data : ∀ bn, (∀ o, off ≤ o → o < off + n → o / BSIZE ≠ bn) →
    Untouched s V s' V' (s.itable ip).inum (fileSlot bn)

theorem Grows.writes (h : Grows ip s V s' V') : Writes ip f off 0 s V s' V' where
  toExtends := h.toExtends
  content j o := by
    rw [if_neg (by omega)]
    exact h.content j o
  mapped o _ _ := by omega
  data bn _ := h.data _ _ (fileSlot_ne bn)

theorem Writes.trans (h : Writes ip f off m s V s1 V1) (h' : Writes ip f (off + m) n s1 V1 s2 V2) :
    Writes ip f off (m + n) s V s2 V2 := by
  have hi := h.inum ip
  constructor
  · exact h.toExtends.trans h'.toExtends
  · intro j o
    rw [h'.content j o, h.content j o, hi]
    by_cases h1 : j = (s.itable ip).inum ∧ off + m ≤ o ∧ o < off + m + n
    · rw [if_pos h1, if_pos (by omega)]
    · rw [if_neg h1]
      by_cases h2 : j = (s.itable ip).inum ∧ off ≤ o ∧ o < off + m
      · rw [if_pos h2, if_pos (by omega)]
      · rw [if_neg h2, if_neg (by omega)]
  · intro o h1 h2
    by_cases hlt : o < off + m
    · have hold := h.mapped o h1 hlt
      have hkeep : fileBlock s2.blk (V2 (s.itable ip).inum) (o / BSIZE) =
          fileBlock s1.blk (V1 (s.itable ip).inum) (o / BSIZE) :=
        h'.keep (s.itable ip).inum (fileSlot (o / BSIZE)) hold
      rwa [hkeep]
    · rw [← hi]
      exact h'.mapped o (by omega) (by omega)
  · intro bn hbn
    have h1 := h.data bn fun o ho ho' => hbn o ho (by omega)
    have h2 := h'.data bn fun o ho ho' => hbn o (by omega) (by omega)
    rw [hi] at h2
    exact h1.trans h.toExtends h'.toExtends h2

theorem Consistent.storeBytes {D : Option ℕ} {i : ℕ} (h : Consistent D s V)
    (hb : fileBlock s.blk (V i) (off / BSIZE) ≠ 0) (hsb : s'.sb = s.sb)
    (htab : s'.itable = s.itable)
    (hblk : s'.blk = update s.blk (fileBlock s.blk (V i) (off / BSIZE))
      ((s.blk (fileBlock s.blk (V i) (off / BSIZE))).blit (off % BSIZE)
        ((List.range m).map fun j => f (off + j))))
    (hoff : off % BSIZE + m ≤ BSIZE) (j o : ℕ) :
    content s'.blk (V j) o =
      if j = i ∧ off ≤ o ∧ o < off + m then f o else content s.blk (V j) o := by
  obtain ⟨-, -, -, hcont⟩ := h.storeData hb hsb htab hblk
  rw [hcont j o]
  have hmod : o % BSIZE < BSIZE := Nat.mod_lt _ (by decide)
  by_cases hjo : j = i ∧ o / BSIZE = off / BSIZE
  · obtain ⟨rfl, hdiv⟩ := hjo
    have h1 := Nat.div_add_mod o BSIZE
    have h2 := Nat.div_add_mod off BSIZE
    rw [if_pos ⟨rfl, hdiv⟩]
    rw [hdiv] at h1
    unfold Bytes.blit
    rw [List.length_map, List.length_range]
    by_cases hin : off ≤ o ∧ o < off + m
    · have hlt : o % BSIZE - off % BSIZE < m := by omega
      rw [if_pos (by omega), if_pos ⟨rfl, hin⟩]
      simp only [List.getD_eq_getElem?_getD, List.getElem?_map, List.getElem?_range hlt,
        Option.map_some, Option.getD_some]
      congr 1
      omega
    · rw [if_neg (by omega), if_neg fun h => hin h.2]
      unfold Fs.content byteAt
      rw [hdiv, if_neg hb]
  · have hout : ¬ (j = i ∧ off ≤ o ∧ o < off + m) := by
      rintro ⟨rfl, h1, h2⟩
      refine hjo ⟨rfl, ?_⟩
      unfold BSIZE at *
      omega
    rw [if_neg hjo, if_neg hout]

theorem Grows.round (h : Grows ip s V s1 V1) (hl : (s.itable ip).locked = true)
    (hoff : off % BSIZE + m ≤ BSIZE)
    (hb : fileBlock s1.blk (V1 (s.itable ip).inum) (off / BSIZE) ≠ 0) (hch : Changes s1 s2)
    (htab : s2.itable = s1.itable)
    (hblk : s2.blk = update s1.blk (fileBlock s1.blk (V1 (s.itable ip).inum) (off / BSIZE))
      ((s1.blk (fileBlock s1.blk (V1 (s.itable ip).inum) (off / BSIZE))).blit (off % BSIZE)
        ((List.range m).map fun j => f (off + j))))
    (hlh : ∀ c, c ∈ s2.log.lh ↔
      c = fileBlock s1.blk (V1 (s.itable ip).inum) (off / BSIZE) ∨ c ∈ s1.log.lh)
    (hm : 0 < m) : Writes ip f off m s V s2 V1 := by
  have hi := h.inum ip
  set i := (s.itable ip).inum with hidef
  set b := fileBlock s1.blk (V1 i) (off / BSIZE) with hbdef
  obtain ⟨hrep, hslots, hlow, -⟩ := h.rep.storeData hb hch.sb htab hblk
  have hx : Extends ip s1 V1 s2 V1 := by
    constructor
    · exact .refl htab (h.rep.table.held (by rwa [h.locked]))
    · rw [hi]
      exact hrep
    · exact hch
    · rfl
    · exact fun j u _ => congrFun (congrFun hslots j) u
    · exact fun j u _ => congrFun (congrFun hslots j) u
    · intro j hj
      have := h.rep.owned.layout.IBLOCK_lt hj
      have hds : s1.sb.bmapstart < s1.sb.dataStart := Superblock.bmapstart_lt_dataStart
      exact dinode_congr (hlow _ (by omega))
  constructor
  · exact h.toExtends.trans hx
  · intro j o
    rw [h.rep.storeBytes hb hch.sb htab hblk hoff j o, h.content j o]
  · intro o h1 h2
    have hdiv : o / BSIZE = off / BSIZE := by
      unfold BSIZE at *
      omega
    rw [hdiv, show fileBlock s2.blk (V1 i) (off / BSIZE) = b from congrFun (congrFun hslots i) _]
    exact hb
  · intro bn hbn
    refine (h.data i _ (fileSlot_ne bn)).trans h.toExtends hx ?_
    have hne : bn ≠ off / BSIZE := (hbn off le_rfl (by omega)).symm
    unfold Untouched
    rw [hslots]
    split_ifs with h0
    · exact fun h' => absurd h0 h'
    · have hcb : slots s1.blk V1 i (fileSlot bn) ≠ b := by
        intro e
        exact hne (fileSlot_inj (h.rep.owned.slots.inj h0 e).2)
      refine ⟨?_, fun hmem => ?_⟩
      · rw [hblk, update_of_ne hcb]
      · exact ((hlh _).mp hmem).resolve_left hcb

/-- The bytes that are copied and not counted, if only `r` of `n` are. -/
def leftover (src : Mem) (n r : ℕ) : List UInt8 :=
  (List.range (src.reach n - r)).map fun j => src.byte (r + j)

/-- The state after a round that fails, if the one before its copy is `s1`. -/
structure Stops (i : ℕ) (l : List UInt8) (off : ℕ) (s1 : State) (V1 : ℕ → Dinode) (s' : State) :
    Prop where
  mapped : fileBlock s1.blk (V1 i) (off / BSIZE) ≠ 0
  state : s' = { s1 with blk := s'.blk }
  blk : s'.blk = update s1.blk (fileBlock s1.blk (V1 i) (off / BSIZE))
    ((s1.blk (fileBlock s1.blk (V1 i) (off / BSIZE))).blit (off % BSIZE) l)

/-- They are in one block. -/
theorem Mem.leftover_fits (src : Mem) {r : ℕ} (hlt : r < n) (hr : r = src.counted off n) :
    (off + r) % BSIZE + (src.reach n - r) ≤ BSIZE := by
  have hreach := src.reach_le n
  unfold Mem.counted at hr
  split_ifs at hr with hall
  · omega
  · unfold BSIZE at *
    omega

theorem Mem.map_byte (src : Mem) (base : ℕ) : (List.range m).map (fun j => src.byte (tot + j)) =
    (List.range m).map fun j => (fun o => src.byte (o - base)) (base + tot + j) := by
  refine List.map_congr_left fun j _ => ?_
  dsimp only
  congr 1
  omega

/-- The loop of `writei`, which stands at byte `tot` of the source and offset `base + tot`. -/
theorem writeiLoop_spec {src : Mem} (base : ℕ) {k : ℕ} (hE : Allows E)
    (h : Consistent (some (s.itable ip).inum) s V) (hl : (s.itable ip).locked = true)
    (hsrc : src.Holds n) (hk : n ≤ tot + k) (htot : tot ≤ src.reach n)
    (hround : tot = 0 ∨ tot = n ∨ (base + tot) % BSIZE = 0)
    (hmax : base + n ≤ MAXFILE * BSIZE) :
    Spec (writeiLoop ip src k tot (base + tot) n) s (fun r s' => tot ≤ r.1 ∧
      r.1 = src.counted base n ∧ r.2 = base + r.1 ∧ ∃ s1 V1,
        Writes ip (fun o => src.byte (o - base)) (base + tot) (r.1 - tot) s V s1 V1 ∧
        (r.1 = n ∧ s' = s1 ∨ r.1 < n ∧
          (∀ o, base + tot ≤ o → o < base + r.1 → o / BSIZE ≠ (base + r.1) / BSIZE) ∧
          Stops (s.itable ip).inum (leftover src n r.1) (base + r.1) s1 V1 s')) E := by
  have hreach := src.reach_le n
  have hall : tot = n → tot = src.counted base n := by
    intro e
    unfold Mem.counted
    rw [if_pos (by omega), e]
  induction k generalizing s V tot with
  | zero =>
    refine spec_pure.mpr ⟨le_rfl, hall (by omega), rfl, s, V, ?_, .inl ⟨by dsimp only; omega, rfl⟩⟩
    rw [Nat.sub_self]
    exact (Grows.refl h hl).writes
  | succ k ih =>
    unfold writeiLoop
    by_cases ht : tot < n
    · rw [if_pos ht]
      have hbn : (base + tot) / BSIZE < MAXFILE := by
        rw [Nat.div_lt_iff_lt_mul (by decide)]
        omega
      refine (bmap_spec hE h hl hbn).bind ?_
      rintro b s1 ⟨V1, hg, rfl, hb⟩
      unfold bread
      simp only [spec_bind, spec_get, spec_pure]
      have hmod : (base + tot) % BSIZE < BSIZE := Nat.mod_lt _ (by decide)
      set m := min (n - tot) (BSIZE - (base + tot) % BSIZE) with hm
      have hcopy := eitherCopyin_eq hsrc htot (show tot + m ≤ n by omega)
      by_cases hok : tot + m ≤ src.reach n
      · -- a full round: go on from the state after it
        rw [show min m (src.reach n - tot) = m by omega] at hcopy
        rw [hcopy]
        dsimp only
        rw [decide_eq_true hok, if_pos rfl, src.map_byte base]
        simp only [spec_bind]
        have habove : s1.sb.inodestart ≤ _ := hg.rep.owned.above hb
        refine spec_store_logWrite hE habove fun s2 hch hblk htab hlh => ?_
        have hwrites : Writes ip (fun o => src.byte (o - base)) (base + tot) m s V s2 V1 :=
          hg.round hl (by omega) hb hch htab hblk hlh (by omega)
        have hi := hwrites.inum ip
        have hends : tot + m = n ∨ (base + tot + m) % BSIZE = 0 := by
          unfold BSIZE at *
          omega
        have hall' : tot + m = n → tot + m = src.counted base n := by
          intro e
          unfold Mem.counted
          rw [if_pos (by omega), e]
        rw [Nat.add_assoc]
        refine (ih (hi ▸ hwrites.rep) (by rwa [hwrites.locked]) (by omega) hok
          (.inr (by rwa [Nat.add_assoc] at hends)) hall').imp ?_
        rintro r s' ⟨h1, h2, h3, s3, V3, hw, hend⟩
        rw [← Nat.add_assoc] at hw hend
        have hsum : m + (r.1 - (tot + m)) = r.1 - tot := by omega
        refine ⟨by omega, h2, h3, s3, V3, hsum ▸ hwrites.trans hw, ?_⟩
        obtain hend | ⟨hlt, hbefore, hstop⟩ := hend
        · exact .inl hend
        · refine .inr ⟨hlt, fun o ho ho' => ?_, hi ▸ hstop⟩
          by_cases hoc : o < base + tot + m
          · -- the round ended at the end of its block
            have hend : (base + tot + m) % BSIZE = 0 := hends.resolve_left (by omega)
            unfold BSIZE at *
            omega
          · exact hbefore o (by omega) ho'
      · rw [show min m (src.reach n - tot) = src.reach n - tot by omega] at hcopy
        rw [hcopy]
        dsimp only
        rw [decide_eq_false hok, if_neg (by decide)]
        unfold store
        rw [spec_modify, spec_pure]
        have hstop : src.counted base n = tot :=
          Mem.counted_eq_of_stop (m := m) (hround.imp_right (Or.resolve_left · ht.ne)) (by omega)
            (by omega) htot (by omega)
        refine ⟨le_rfl, hstop.symm, rfl, s1, V1, ?_, .inr ⟨ht, fun o _ _ => by omega, hb, rfl, rfl⟩⟩
        rw [Nat.sub_self]
        exact hg.writes
    · rw [if_neg ht, spec_pure]
      refine ⟨le_rfl, hall (by omega), rfl, s, V, ?_, .inl ⟨by dsimp only; omega, rfl⟩⟩
      rw [Nat.sub_self]
      exact (Grows.refl h hl).writes

/-! ## `writei` -/

/-- What a call of `writei` that returns `r` has done; the size is `z` after it. -/
structure Written (D : Option ℕ) (z : ℕ) (ip : Ip) (src : Mem) (off n r : ℕ) (s : State)
    (V : ℕ → Dinode) (s' : State) (V' : ℕ → Dinode) : Prop
    extends LogOnly s s', Edits ip s V s' V' where
  rep : Consistent D s' V'
  foreign : ∀ j u, j ≠ (s.itable ip).inum → slots s'.blk V' j u = slots s.blk V j u
  head : V' (s.itable ip).inum =
    { V (s.itable ip).inum with addrs := (V' (s.itable ip).inum).addrs, size := z }
  content : ∀ j o, content s'.blk (V' j) o =
    if j = (s.itable ip).inum ∧ off ≤ o ∧ o < off + src.reach n
    then src.byte (o - off) else content s.blk (V j) o
  mapped : ∀ o, off ≤ o → o < off + r → fileBlock s'.blk (V' (s.itable ip).inum) (o / BSIZE) ≠ 0
  logged : ∀ b, s'.blk b ≠ s.blk b → b ∈ s'.log.lh ∨
    r < n ∧ b = fileBlock s'.blk (V' (s.itable ip).inum) ((off + r) / BSIZE)
  /-- The block of the round that failed. -/
  rest : r < n → fileBlock s'.blk (V' (s.itable ip).inum) ((off + r) / BSIZE) ≠ 0 ∧
    if fileBlock s.blk (V (s.itable ip).inum) ((off + r) / BSIZE) = 0 then
      fileBlock s'.blk (V' (s.itable ip).inum) ((off + r) / BSIZE) ∈ s'.log.lh
    else
      fileBlock s'.blk (V' (s.itable ip).inum) ((off + r) / BSIZE) =
          fileBlock s.blk (V (s.itable ip).inum) ((off + r) / BSIZE) ∧
        s'.blk (fileBlock s.blk (V (s.itable ip).inum) ((off + r) / BSIZE)) =
          (s.blk (fileBlock s.blk (V (s.itable ip).inum) ((off + r) / BSIZE))).blit
            ((off + r) % BSIZE) (leftover src n r) ∧
        (fileBlock s.blk (V (s.itable ip).inum) ((off + r) / BSIZE) ∈ s'.log.lh →
          fileBlock s.blk (V (s.itable ip).inum) ((off + r) / BSIZE) ∈ s.log.lh)

section Written

variable {src : Mem} {r : ℕ}

theorem Writes.written (hreach : src.reach n = n)
    (h : Writes ip (fun o => src.byte (o - off)) off n s V s' V') :
    Written (some (s.itable ip).inum) (V (s.itable ip).inum).size ip src off n n s V s' V' where
  toLogOnly := h.changes.toLogOnly
  toEdits := h.toEdits
  rep := h.rep
  foreign := h.foreign
  head := h.head
  content j o := by
    rw [hreach]
    exact h.content j o
  mapped := h.mapped
  logged b hb := .inl (h.changes.logged b hb)
  rest hlt := absurd hlt (lt_irrefl n)

theorem Writes.written_stops (hlt : r < n) (hr : r = src.counted off n)
    (h : Writes ip (fun o => src.byte (o - off)) off r s V s1 V1)
    (hbefore : ∀ o, off ≤ o → o < off + r → o / BSIZE ≠ (off + r) / BSIZE)
    (hstop : Stops (s.itable ip).inum (leftover src n r) (off + r) s1 V1 s') :
    Written (some (s.itable ip).inum) (V (s.itable ip).inum).size ip src off n r s V s' V1 := by
  set i := (s.itable ip).inum with hi
  obtain ⟨hb, hst, hblk⟩ := hstop
  have hsb : s'.sb = s1.sb := by rw [hst]
  have htab : s'.itable = s1.itable := by rw [hst]
  have hlog : s'.log = s1.log := by rw [hst]
  have hle : r ≤ src.reach n := hr ▸ src.counted_le_reach off n
  have hfit : (off + r) % BSIZE + (src.reach n - r) ≤ BSIZE := src.leftover_fits hlt hr
  have hbytes : leftover src n r =
      (List.range (src.reach n - r)).map fun j => (fun o => src.byte (o - off)) (off + r + j) :=
    src.map_byte off
  obtain ⟨hrep, hslots, -, -⟩ := h.rep.storeData hb hsb htab hblk
  have hfb : ∀ j m, fileBlock s'.blk (V1 j) m = fileBlock s1.blk (V1 j) m := fun j m =>
    congrFun (congrFun hslots j) _
  constructor
  · rw [hst]
    exact h.changes.toLogOnly.congr
  · exact ⟨htab.trans h.itable, h.others⟩
  · exact hrep
  · exact fun j u hj => (congrFun (congrFun hslots j) u).trans (h.foreign j u hj)
  · exact h.head
  · intro j o
    rw [hbytes] at hblk
    rw [h.rep.storeBytes (f := fun o => src.byte (o - off)) hb hsb htab hblk hfit j o,
      h.content j o]
    by_cases h1 : j = i ∧ off + r ≤ o ∧ o < off + r + (src.reach n - r)
    · rw [if_pos h1, if_pos (by omega)]
    · rw [if_neg h1]
      by_cases h2 : j = i ∧ off ≤ o ∧ o < off + r
      · rw [if_pos h2, if_pos (by omega)]
      · rw [if_neg h2, if_neg (by omega)]
  · intro o h1 h2
    rw [hfb]
    exact h.mapped o h1 h2
  · intro b' hb'
    rw [hfb, hlog]
    by_cases e : b' = fileBlock s1.blk (V1 i) ((off + r) / BSIZE)
    · exact .inr ⟨hlt, e⟩
    · rw [hblk, update_of_ne e] at hb'
      exact .inl (h.changes.logged b' hb')
  · intro _
    rw [hfb, hlog]
    refine ⟨hb, ?_⟩
    have hdata := h.data _ hbefore
    unfold Untouched at hdata
    split_ifs with h0
    · rw [if_pos (show slots s.blk V i (fileSlot ((off + r) / BSIZE)) = 0 from h0)] at hdata
      exact hdata hb
    · rw [if_neg (show ¬ slots s.blk V i (fileSlot ((off + r) / BSIZE)) = 0 from h0)] at hdata
      have hkeep : fileBlock s1.blk (V1 i) ((off + r) / BSIZE) =
          fileBlock s.blk (V i) ((off + r) / BSIZE) := h.keep i _ h0
      refine ⟨hkeep, ?_, hdata.2⟩
      rw [hblk, hkeep, update_self]
      congr 1
      exact hdata.1

/-- The end of `writei`: the size, and the inode on the disk. -/
theorem Written.finish (hE : Allows E) (hl : (s.itable ip).locked = true)
    (hoff : off ≤ (V (s.itable ip).inum).size) (hmax : off + r ≤ MAXFILE * BSIZE)
    (h : Written (some (s.itable ip).inum) (V (s.itable ip).inum).size ip src off n r s V s1 V1) :
    Spec (setDin ip fun din => { din with size := max din.size (off + r) }) s1
      (fun _ s2 => Spec (iupdate ip) s2 (fun _ s' => ∃ V',
        Written none (max (V (s.itable ip).inum).size (off + r)) ip src off n r s V s' V') E) E := by
  have hent := h.entry
  have hi1 : (s1.itable ip).inum = (s.itable ip).inum := by rw [hent]
  have hl1 : (s1.itable ip).locked = true := by rwa [hent]
  set i := (s.itable ip).inum with hi
  set x : Dinode := { V1 i with size := max (V1 i).size (off + r) } with hx
  have hsize : (V1 i).size = (V i).size := by rw [h.head]
  have hfits := h.rep.owned.fits i
  obtain ⟨href1, hval1⟩ := h.rep.table.locked ip hl1
  have hbound := h.rep.table.bound ip href1
  have htype : x.type ≠ 0 := by
    have := h.rep.table.typed ip href1 hval1
    rwa [hi1] at this
  have hupd := setDin_iupdate_spec (x := x) hE (hi1.symm ▸ h.rep) hl1
    (g := fun din => { din with size := max din.size (off + r) }) (by rw [hi1]) (by rw [hi1])
    ⟨hfits.type, hfits.major, hfits.minor, hfits.nlink, ?size, hfits.addrs, hfits.rest⟩
    htype ?full
  case size =>
    have h1 := hfits.size
    have h2 : MAXFILE * BSIZE < 2 ^ 32 := by decide
    show max (V1 i).size (off + r) < 2 ^ 32
    omega
  case full =>
    intro bn hbn
    rw [hi1]
    by_cases hlt : bn * BSIZE < (V1 i).size
    · exact h.rep.full i bn hlt
    · have hbn' : bn * BSIZE < off + r := by
        have : x.size = max (V1 i).size (off + r) := rfl
        omega
      have := h.mapped (bn * BSIZE) (by omega) hbn'
      rwa [Nat.mul_div_cancel _ (by decide)] at this
  refine hupd.imp fun _ s2 h2 => h2.imp fun _ s' hu => ⟨update V1 i x, ?_⟩
  have hxi : update V1 i x i = x := update_self _ _ _
  have hdata : ∀ c, s1.sb.dataStart ≤ c → s'.blk c = s1.blk c := fun c hc => by
    have hds : s1.sb.bmapstart < s1.sb.dataStart := Superblock.bmapstart_lt_dataStart
    exact hu.data h.rep.owned.layout hbound (by omega)
  have hslots : slots s'.blk (update V1 i x) = slots s1.blk V1 := by
    have haddrs : x.addrs = (V1 i).addrs := rfl
    rw [slots_setHead haddrs]
    exact slots_of_data h.rep.owned.slots hdata
  have hfb : ∀ m, fileBlock s'.blk (update V1 i x i) m = fileBlock s1.blk (V1 i) m :=
    fun m => congrFun (congrFun hslots i) _
  have hin : ∀ c, s1.sb.dataStart ≤ c → (c ∈ s'.log.lh ↔ c ∈ s1.log.lh) := by
    intro c hc
    have hIB := h.rep.owned.layout.IBLOCK_lt hbound
    have hds : s1.sb.bmapstart < s1.sb.dataStart := Superblock.bmapstart_lt_dataStart
    rw [hu.lh c]
    exact ⟨fun hor => hor.resolve_left (by omega), .inr⟩
  have hrange : ∀ m, fileBlock s1.blk (V1 i) m ≠ 0 → s1.sb.dataStart ≤ fileBlock s1.blk (V1 i) m :=
    fun m hm => (h.rep.owned.slots.range (i := i) hm).1
  constructor
  · exact h.toLogOnly.trans hu.changes.toLogOnly
  · constructor
    · rw [hu.itable, hent, h.itable, update_idem, ← hi, hxi]
    · intro j hj
      rw [update_of_ne hj]
      exact h.others j hj
  · rw [← hi1]
    exact hu.rep
  · intro j u hj
    rw [hslots]
    exact h.foreign j u hj
  · rw [← hi, hxi, hx, hsize, h.head]
  · intro j o
    rw [← h.content j o, ← hu.content j o, hi1]
  · intro o h1 h2
    rw [hfb]
    exact h.mapped o h1 h2
  · intro b hb
    rw [hfb]
    by_cases e : s1.blk b = s.blk b
    · exact .inl (hu.changes.logged b (e ▸ hb))
    · obtain hlog | hjunk := h.logged b e
      · exact .inl (hu.changes.lh b hlog)
      · exact .inr hjunk
  · intro hlt
    obtain ⟨hb, hrest⟩ := h.rest hlt
    rw [hfb]
    refine ⟨hb, ?_⟩
    split_ifs at hrest ⊢ with h0
    · exact (hin _ (hrange _ hb)).mpr hrest
    · obtain ⟨heq, hblk, hlog⟩ := hrest
      have hge := hrange _ hb
      rw [heq] at hge
      refine ⟨heq, (hdata _ hge).trans hblk, fun hm => hlog ((hin _ hge).mp hm)⟩

theorem writei_spec (hE : Allows E) (h : Consistent none s V) (hl : (s.itable ip).locked = true)
    (hsrc : src.Holds n) :
    Spec (writei ip src off n) s (fun r s' => match r with
      | none => s' = s ∧ ((V (s.itable ip).inum).size < off ∨ MAXFILE * BSIZE < off + n)
      | some r => r = src.counted off n ∧ ∃ V', Written none (max (V (s.itable ip).inum).size (off + r))
          ip src off n r s V s' V') E := by
  unfold writei
  rw [spec_get_bind]
  dsimp only
  rw [h.table.held hl]
  split
  · rename_i hout
    rw [spec_pure]
    refine ⟨rfl, ?_⟩
    have h1 := (h.owned.fits (s.itable ip).inum).size
    have h2 : MAXFILE * BSIZE < 2 ^ 32 := by decide
    omega
  · rename_i hin
    split
    · rename_i hbig
      exact spec_pure.mpr ⟨rfl, .inr hbig⟩
    · have hloop : Spec (writeiLoop ip src n 0 off n) s _ E :=
        writeiLoop_spec off hE h.weaken hl hsrc (by omega) (Nat.zero_le _) (.inl rfl) (by omega)
      refine hloop.bind ?_
      rintro ⟨r, off'⟩ s1 ⟨-, hr, hoff', s2, V2, hw, hend⟩
      dsimp only at hr hoff' hw hend ⊢
      subst hoff'
      rw [Nat.add_zero, Nat.sub_zero] at hw
      have hle : r ≤ src.reach n := hr ▸ src.counted_le_reach off n
      have hwritten : ∃ V1, Written (some (s.itable ip).inum) (V (s.itable ip).inum).size ip src off
          n r s V s1 V1 := by
        obtain ⟨rfl, rfl⟩ | ⟨hlt, hbefore, hstop⟩ := hend
        · exact ⟨V2, hw.written (le_antisymm (src.reach_le r) hle)⟩
        · exact ⟨V2, hw.written_stops hlt hr hbefore hstop⟩
      obtain ⟨V1, hw1⟩ := hwritten
      have hreach := src.reach_le n
      have hfin := hw1.finish hE hl (by omega) (by omega)
      simp only [spec_bind, spec_pure]
      exact hfin.imp fun _ s3 h3 => h3.imp fun _ s4 h4 => ⟨hr, h4⟩

end Written

end TatakOS.Fs
