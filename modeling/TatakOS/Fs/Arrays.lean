import TatakOS.Fs.Commit
import TatakOS.Fs.Room
import TatakOS.Fs.ShortWrite

/-!
# Inodes as byte arrays

`readi` and `writei`, in transactions, do to the inodes what they would do to independent arrays of
bytes, one for each inode number. A write needs room in the log besides free blocks.
-/

namespace TatakOS.Fs

open Function

variable {s s' : State} {V V' : ℕ → Dinode} {ip : Ip} {i off n : ℕ} {src dst : Mem}

/-! ## Arrays -/

/-- The bytes of a file. -/
def bytesOf (d : ℕ → Block) (x : Dinode) : List UInt8 := (List.range x.size).map (content d x)

@[simp] theorem bytesOf_length (d : ℕ → Block) (x : Dinode) : (bytesOf d x).length = x.size := by
  simp [bytesOf]

/-- The bytes of an inode. -/
def array (s : State) (i : ℕ) : List UInt8 := bytesOf s.blk (dinode s.sb s.blk i)

/-- The array with other bytes from offset `off` on. -/
def overwrite (l : List UInt8) (off : ℕ) (data : List UInt8) : List UInt8 :=
  l.take off ++ data ++ l.drop (off + data.length)

inductive Op
  | beginOp
  | endOp
  | readi (ip : Ip) (dst : Mem) (off n : ℕ)
  | writei (ip : Ip) (src : Mem) (off n : ℕ)

inductive Result
  | none
  /-- The bytes that were read. -/
  | read (r : Option (List UInt8))
  /-- How many bytes were written. -/
  | written (r : Option ℕ)

def Op.exec : Op → Kern Result
  | .beginOp => do
    Fs.beginOp
    return .none
  | .endOp => do
    Fs.endOp
    return .none
  | .readi ip dst off n => return .read (← Fs.readi ip dst off n)
  | .writei ip src off n => return .written (← Fs.writei ip src off n)

/-- The operation on arrays. Entry `ip` of the inode table is for inode `inum ip`. -/
def Op.onArrays (inum : Ip → ℕ) (a : ℕ → List UInt8) : Op → Result × (ℕ → List UInt8)
  | .beginOp => (.none, a)
  | .endOp => (.none, a)
  | .readi ip _ off n => (.read (some (((a (inum ip)).drop off).take n)), a)
  | .writei ip src off n =>
    if off ≤ (a (inum ip)).length ∧ off + n ≤ MAXFILE * BSIZE then
      (.written (some n), update a (inum ip)
        (overwrite (a (inum ip)) off ((List.range n).map src.byte)))
    else (.written Option.none, a)

def exec (ops : List Op) : Kern (List Result) := ops.mapM Op.exec

def onArrays (inum : Ip → ℕ) (a : ℕ → List UInt8) : List Op → List Result × (ℕ → List UInt8)
  | [] => ([], a)
  | o :: os =>
    let r := o.onArrays inum a
    let rs := onArrays inum r.2 os
    (r.1 :: rs.1, rs.2)

/-- What the caller of an operation provides. The inode is locked, the offsets do not wrap and the
copies succeed; for a write that is in range there is room in the log and there are free blocks. -/
def Op.Provided (s : State) : Op → Prop
  | .beginOp => (Logging.beginOp s.log).isSome
  | .endOp => 0 < s.log.outstanding ∧ s.log.committing = false
  | .readi ip dst off n => (s.itable ip).locked = true ∧ off + n < 2 ^ 32 ∧ dst.Takes n
  | .writei ip src off n => (s.itable ip).locked = true ∧ off + n < 2 ^ 32 ∧ src.Ready n ∧
    (off ≤ (s.itable ip).din.size → off + n ≤ MAXFILE * BSIZE →
      WriteRoom ip off n s)

/-- Each operation has what it needs when it starts. -/
def Provided : State → List Op → Prop
  | _, [] => True
  | s, o :: os => o.Provided s ∧ ∀ r s', o.exec s = .ok (r, s') → Provided s' os

/-! ## One operation -/

theorem Consistent.array_eq (h : Consistent none s V) (hi : i < s.sb.ninodes) :
    array s i = bytesOf s.blk (V i) := by
  unfold array
  rw [h.clean i hi nofun]

theorem Written.bytesOf_eq (h : Written none (max (V (s.itable ip).inum).size (off + n)) ip src off n
      n s V s' V') (hreach : src.reach n = n) (hoff : off ≤ (V (s.itable ip).inum).size) :
    bytesOf s'.blk (V' (s.itable ip).inum) =
      overwrite (bytesOf s.blk (V (s.itable ip).inum)) off ((List.range n).map src.byte) := by
  unfold bytesOf
  rw [h.size_eq]
  apply List.ext_getElem
  · simp [overwrite]
    omega
  · intro o h1 h2
    have ho : o < max (V (s.itable ip).inum).size (off + n) := by simpa using h1
    rw [List.getElem_map, List.getElem_range, h.content, hreach]
    unfold overwrite
    simp only [true_and, List.getElem_append, List.length_take,
      List.length_append, List.length_map, List.length_range, List.getElem_take,
      List.getElem_drop, List.getElem_map, List.getElem_range]
    split_ifs with c1 c2 c3 c3
    · omega
    · congr 1
      omega
    · omega
    · rfl
    · omega
    · congr 1
      omega

/-- The state represents the arrays `a`. -/
structure Arrays (s : State) (V : ℕ → Dinode) (a : ℕ → List UInt8) : Prop where
  rep : Consistent none s V
  log : LogOk s
  array : ∀ i < s.sb.ninodes, array s i = a i

section Step

variable {a : ℕ → List UInt8} (h : Arrays s V a)
include h

section

variable (hl : (s.itable ip).locked = true)
include hl

theorem Arrays.inum_lt : (s.itable ip).inum < s.sb.ninodes :=
  h.rep.table.bound ip (h.rep.table.locked ip hl).1

theorem Arrays.length_eq : (a (s.itable ip).inum).length = (s.itable ip).din.size := by
  rw [← h.array _ (h.inum_lt hl), h.rep.array_eq (h.inum_lt hl), h.rep.table.held hl,
    bytesOf_length]

theorem Arrays.readi (hn : off + n < 2 ^ 32) (hdst : dst.Takes n) :
    Spec (Fs.readi ip dst off n) s (fun r s' => s' = s ∧
      r = some (((a (s.itable ip).inum).drop off).take n)) fun _ => False := by
  obtain ⟨href, hval⟩ := h.rep.table.locked ip hl
  refine (h.rep.readi_spec href hval hdst hn).imp ?_
  rintro r s' ⟨rfl, rfl⟩
  refine ⟨rfl, congrArg some ?_⟩
  rw [← h.array _ (h.inum_lt hl), h.rep.array_eq (h.inum_lt hl)]
  apply List.ext_getElem
  · simp
  · intro j h1 h2
    simp [bytesOf]

theorem Arrays.writei (hsrc : src.Ready n) (hroom : WriteRoom ip off n s)
    (hoff : off ≤ (s.itable ip).din.size) (hmax : off + n ≤ MAXFILE * BSIZE) :
    Spec (Fs.writei ip src off n) s (fun r s' => r = some n ∧ s'.sb = s.sb ∧
      (∀ k, (s'.itable k).inum = (s.itable k).inum) ∧ ∃ V', Arrays s' V'
        (update a (s.itable ip).inum
          (overwrite (a (s.itable ip).inum) off ((List.range n).map src.byte)))) fun _ => False := by
  have hsize : (s.itable ip).din.size = (V (s.itable ip).inum).size := by
    rw [h.rep.table.held hl]
  rw [hsize] at hoff
  refine (writei_total h.rep hl hroom hoff hmax hsrc).imp ?_
  rintro r s' ⟨rfl, V', hw⟩
  refine ⟨rfl, hw.sb, fun k => ?_, V', hw.rep, ?_, fun j hj => ?_⟩
  · rw [hw.itable]
    by_cases hk : k = ip
    · rw [hk, update_self]
    · rw [update_of_ne hk]
  · exact h.log.logs hw.toLogOnly
  · rw [hw.sb] at hj
    rw [hw.rep.array_eq (by rwa [hw.sb])]
    by_cases hji : j = (s.itable ip).inum
    · subst hji
      rw [update_self, ← h.array _ hj, h.rep.array_eq hj]
      exact hw.bytesOf_eq hsrc.reach hoff
    · rw [update_of_ne hji, ← h.array _ hj, h.rep.array_eq hj, hw.others j hji]
      refine List.map_congr_left fun o _ => ?_
      have := hw.content j o
      rw [if_neg fun e => hji e.1, hw.others j hji] at this
      exact this

end

theorem Arrays.step {o : Op} (ho : o.Provided s) :
    Spec o.exec s (fun r s' => s'.sb = s.sb ∧ (∀ k, (s'.itable k).inum = (s.itable k).inum) ∧
      r = (o.onArrays (fun k => (s.itable k).inum) a).1 ∧
      ∃ V', Arrays s' V' (o.onArrays (fun k => (s.itable k).inum) a).2) fun _ => False := by
  cases o with
  | beginOp =>
    obtain ⟨l, hl⟩ := Option.isSome_iff_exists.mp ho
    have hl' := (Logging.beginOp_eq_some hl).2
    simp only [Op.exec]
    unfold Fs.beginOp
    rw [spec_bind, spec_bind, spec_get, hl]
    dsimp only
    rw [spec_modify, spec_pure]
    refine ⟨rfl, fun _ => rfl, rfl, V, h.rep.congr rfl rfl fun _ _ => rfl, ?_, h.array⟩
    subst hl'
    exact ⟨h.log.size, h.log.length, h.log.above⟩
  | endOp =>
    obtain ⟨hopen, hc⟩ := ho
    simp only [Op.exec]
    refine (endOp_spec h.rep.owned.layout h.log hopen hc).bind fun _ s' he => ?_
    rw [spec_pure]
    have hrep := he.consistent h.rep
    have hsb : s'.sb = s.sb := by rw [he.state]
    have htab : s'.itable = s.itable := by rw [he.state]
    refine ⟨hsb, fun k => by rw [htab], rfl, V, hrep, he.logOk h.log, fun i hi => ?_⟩
    show Fs.array s' i = a i
    rw [hrep.array_eq hi]
    rw [hsb] at hi
    rw [← h.array i hi, h.rep.array_eq hi]
    refine List.map_congr_left fun o _ => ?_
    exact content_of_data h.rep.owned.slots (fun c hc =>
      he.blk c (h.rep.owned.layout.inodestart_lt_dataStart.le.trans hc)) i o
  | readi ip dst off n =>
    obtain ⟨hl, hn, hdst⟩ := ho
    simp only [Op.exec]
    refine (h.readi hl hn hdst).bind ?_
    rintro r s' ⟨rfl, rfl⟩
    rw [spec_pure]
    exact ⟨rfl, fun _ => rfl, rfl, V, h⟩
  | writei ip src off n =>
    obtain ⟨hl, hn, hsrc, hroom⟩ := ho
    simp only [Op.exec, Op.onArrays, h.length_eq hl]
    by_cases hin : off ≤ (s.itable ip).din.size ∧ off + n ≤ MAXFILE * BSIZE
    · rw [if_pos hin]
      refine (h.writei hl hsrc (hroom hin.1 hin.2) hin.1 hin.2).bind ?_
      rintro r s' ⟨rfl, hsb, hinum, V', ha⟩
      rw [spec_pure]
      exact ⟨hsb, hinum, rfl, V', ha⟩
    · rw [if_neg hin]
      rw [h.rep.table.held hl] at hin
      refine (writei_refused h.rep hl hin).bind ?_
      rintro r s' ⟨rfl, rfl⟩
      rw [spec_pure]
      exact ⟨rfl, fun _ => rfl, rfl, V, h⟩

end Step

/-! ## Any number of operations -/

theorem Arrays.run {a : ℕ → List UInt8} {ops : List Op} (h : Arrays s V a) (ho : Provided s ops) :
    Spec (exec ops) s (fun rs s' => rs = (onArrays (fun k => (s.itable k).inum) a ops).1 ∧
      ∃ V', Arrays s' V' (onArrays (fun k => (s.itable k).inum) a ops).2) fun _ => False := by
  induction ops generalizing s V a with
  | nil => exact spec_pure.mpr ⟨rfl, V, h⟩
  | cons o os ih =>
    obtain ⟨ho, hos⟩ := ho
    unfold exec
    rw [List.mapM_cons]
    obtain ⟨r, s1, hr, -, hinum, rfl, V1, h1⟩ := (h.step ho).exists_ok
    rw [spec_bind, spec_of_eq_ok hr, spec_bind]
    refine (ih h1 (hos _ s1 hr)).imp ?_
    rintro rs s' ⟨rfl, V', h'⟩
    rw [spec_pure]
    have hinum' : (fun k => (s1.itable k).inum) = fun k => (s.itable k).inum := funext hinum
    rw [hinum'] at h' ⊢
    exact ⟨rfl, V', h'⟩

section Example

open Mkfs

end Example

end TatakOS.Fs
