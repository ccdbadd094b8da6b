import TatakOS.Base.SlotMap
import TatakOS.Fs.Lookup

/-!
# Directories as maps

A directory, with `dirlink`, `dirlookup` and the erasure of entries in `sys_unlink`, is a map from
names to inode numbers. Names are compared on their first 14 bytes. The abstract directory also says
in which entry a name is; where a new name goes is left open.
-/

namespace TatakOS.Fs

open Function

/-- A name as the kernel gets it, without its end. -/
def Name : Type := { name : List UInt8 // name ≠ [] ∧ (0 : UInt8) ∉ name }

/-- What is compared. -/
def Name.key (x : Name) : List UInt8 := cut x.1

def Inum : Type := { i : ℕ // i ≠ 0 ∧ i < 2 ^ 16 }

/-! ## Operations -/

inductive DirOp
  | beginOp
  | endOp
  | lookup (name : Name)
  | link (name : Name) (inum : Inum)
  | erase (name : Name)

inductive DirResult
  | none
  /-- The inode number and the offset. -/
  | found (r : Option (ℕ × ℕ))
  | linked (ok : Bool)
  | erased (ok : Bool)

/-- The part of `sys_unlink` that clears the entry. -/
def eraseEntry (dp : Ip) (name : List UInt8) : Kern Bool := do
  match ← dirlookup dp name with
  | none => return false
  | some (ip, off) =>
    iput ip
    writeEntry dp off (List.replicate 16 0) .unlinkWritei
    return true

def DirOp.exec (dp : Ip) : DirOp → Kern DirResult
  | .beginOp => do
    Fs.beginOp
    return .none
  | .endOp => do
    Fs.endOp
    return .none
  | .lookup name => do
    match ← dirlookup dp name.1 with
    | Option.none => return .found Option.none
    | some (ip, off) =>
      let inum := ((← get).itable ip).inum
      iput ip
      return .found (some (inum, off))
  | .link name inum => return .linked (← dirlink dp name.1 inum.1)
  | .erase name => return .erased (← eraseEntry dp name.1)

def dirExec (dp : Ip) (ops : List DirOp) : Kern (List DirResult) := ops.mapM (DirOp.exec dp)

/-! ## The abstract directory -/

/-- For each name the entry and the inode number. -/
abbrev DirMap := List UInt8 → Option (ℕ × ℕ)

/-- What an operation does to a directory. -/
inductive DirStep (m : DirMap) : DirOp → DirResult → DirMap → Prop
  | beginOp : DirStep m .beginOp .none m
  | endOp : DirStep m .endOp .none m
  | lookup (name : Name) :
    DirStep m (.lookup name) (.found ((m name.key).map fun e => (e.2, 16 * e.1))) m
  | linkOld (name : Name) (inum : Inum) (h : m name.key ≠ none) :
    DirStep m (.link name inum) (.linked false) m
  | linkNew (name : Name) (inum : Inum) (k : ℕ) (h : m name.key = none)
    (hk : ∀ key i, m key ≠ some (k, i)) :
    DirStep m (.link name inum) (.linked true) (update m name.key (some (k, inum.1)))
  | eraseNone (name : Name) (h : m name.key = none) : DirStep m (.erase name) (.erased false) m
  | eraseOld (name : Name) (h : m name.key ≠ none) :
    DirStep m (.erase name) (.erased true) (update m name.key none)

inductive DirRun : DirMap → List DirOp → List DirResult → DirMap → Prop
  | nil (m : DirMap) : DirRun m [] [] m
  | cons {m m' m'' : DirMap} {o : DirOp} {os : List DirOp} {r : DirResult} {rs : List DirResult}
    (h : DirStep m o r m') (hs : DirRun m' os rs m'') : DirRun m (o :: os) (r :: rs) m''

/-- The last operation on a name decides: the inode number of a successful `dirlink`, or nothing. -/
def lastLink (key : List UInt8) : List DirOp → List DirResult → Option ℕ → Option ℕ
  | .link name inum :: os, .linked true :: rs, i =>
    lastLink key os rs (if name.key = key then some inum.1 else i)
  | .erase name :: os, .erased _ :: rs, i => lastLink key os rs (if name.key = key then none else i)
  | _ :: os, _ :: rs, i => lastLink key os rs i
  | _, _, i => i

theorem DirRun.lastLink {m m' : DirMap} {ops : List DirOp} {rs : List DirResult}
    (h : DirRun m ops rs m') (key : List UInt8) :
    (m' key).map Prod.snd = Fs.lastLink key ops rs ((m key).map Prod.snd) := by
  induction h with
  | nil m => rfl
  | cons hstep _ ih =>
    rw [ih]
    cases hstep with
    | beginOp => rfl
    | endOp => rfl
    | lookup name => rfl
    | linkOld name inum h => rfl
    | linkNew name inum k h hk | eraseOld name h =>
      rw [Fs.lastLink]
      by_cases e : name.key = key
      · rw [if_pos e, e, update_self]
        rfl
      · rw [if_neg e, update_of_ne (Ne.symm e)]
    | eraseNone name h =>
      rw [Fs.lastLink]
      by_cases e : name.key = key
      · rw [if_pos e, ← e, h]
        rfl
      · rw [if_neg e]

/-! ## Entries in bytes -/

section Bytes

variable {l de name : List UInt8} {j k n : ℕ}

theorem overwrite_getElem? {off o : ℕ} (h : off ≤ l.length) : (overwrite l off de)[o]? =
      if off ≤ o ∧ o < off + de.length then de[o - off]? else l[o]? := by
  unfold overwrite
  rw [List.append_assoc]
  by_cases h1 : o < off
  · rw [List.getElem?_append_left (by simp; omega), List.getElem?_take, if_pos h1, if_neg (by omega)]
  · rw [List.getElem?_append_right (by simp; omega), List.length_take, Nat.min_eq_left h]
    by_cases h2 : o < off + de.length
    · rw [List.getElem?_append_left (by omega), if_pos ⟨by omega, h2⟩]
    · rw [List.getElem?_append_right (by omega), List.getElem?_drop, if_neg (by omega)]
      congr 1
      omega

theorem dirEntry_getElem? (o : ℕ) :
    (dirEntry l k)[o]? = if o < 16 then l[16 * k + o]? else none := by
  unfold dirEntry
  rw [List.getElem?_take, List.getElem?_drop]

theorem dirEntry_overwrite (hk : 16 * k ≤ l.length) (hde : de.length = 16) :
    dirEntry (overwrite l (16 * k) de) j = if j = k then de else dirEntry l j := by
  apply List.ext_getElem?
  intro o
  rw [dirEntry_getElem?]
  split_ifs with ho e e
  · rw [overwrite_getElem? hk, if_pos (by omega)]
    congr 1
    omega
  · rw [overwrite_getElem? hk, if_neg (by omega), dirEntry_getElem?, if_pos ho]
  · rw [List.getElem?_eq_none (by omega)]
  · rw [dirEntry_getElem?, if_neg ho]

/-- What the entries of a directory say. -/
def dirSlots (l : List UInt8) (k : ℕ) : Option (List UInt8 × ℕ) := parse (dirEntry l k)

theorem dirSlots_overwrite (hk : 16 * k ≤ l.length) (hde : de.length = 16) :
    dirSlots (overwrite l (16 * k) de) = update (dirSlots l) k (parse de) := by
  funext j
  unfold dirSlots
  rw [dirEntry_overwrite hk hde]
  by_cases e : j = k
  · rw [if_pos e, e, update_self]
  · rw [if_neg e, update_of_ne e]

theorem parse_zero : parse (List.replicate 16 0) = none := by decide

theorem cut_nameField_eq (h : (0 : UInt8) ∉ name) : cut (nameField name) = cut name := by
  rw [cut_nameField h, cut_of_nonul h]

theorem parse_dirent (x : Name) (i : Inum) : parse (dirent i.1 x.1) = some (x.key, i.1) := by
  have hi : deInum (dirent i.1 x.1) = i.1 := deInum_dirent i.2.2 x.1
  rw [parse, hi, if_neg i.2.1, deName_dirent, cut_nameField_eq x.2.2]
  rfl

theorem IsMap.lookupEntry {m : DirMap} (h : IsMap (dirSlots l) (l.length / 16) m) (name : List UInt8) :
    Fs.lookupEntry l name = m (cut name) := by
  unfold Fs.lookupEntry
  rw [h.find (cut name)]
  · cases hm : m (cut name) with
    | none => rfl
    | some e =>
      obtain ⟨k, i⟩ := e
      obtain ⟨-, he⟩ := (h _ k i).mp hm
      simp only [dirSlots, parse] at he
      split_ifs at he with h0
      exact congrArg (fun i => some (k, i)) (Prod.mk.inj (Option.some.inj he)).2
  · intro j _
    rw [decide_eq_true_iff, dirSlots, parse, namecmp, decide_eq_true_iff]
    constructor
    · rintro ⟨h0, hn⟩
      exact ⟨_, by rw [if_neg h0, hn]⟩
    · rintro ⟨i, hi⟩
      split_ifs at hi with h0
      exact ⟨h0, (Prod.mk.inj (Option.some.inj hi)).1.symm⟩

theorem firstEmpty_le (l : List UInt8) : firstEmpty l ≤ l.length / 16 := by
  unfold firstEmpty
  cases h : (List.range (l.length / 16)).find? fun k => deInum (dirEntry l k) = 0 with
  | none => exact le_rfl
  | some k => exact (List.mem_range.mp (List.find?_range_eq_some.mp h).2.1).le

theorem firstEmpty_free (h : firstEmpty l < l.length / 16) : dirSlots l (firstEmpty l) = none := by
  unfold firstEmpty at *
  cases hf : (List.range (l.length / 16)).find? fun k => deInum (dirEntry l k) = 0 with
  | none =>
    rw [hf, Option.getD_none] at h
    exact absurd h (lt_irrefl _)
  | some k =>
    have := (List.find?_range_eq_some.mp hf).1
    rw [decide_eq_true_iff] at this
    exact if_pos this

end Bytes

/-! ## The directory in the kernel -/

variable {s s' : State} {V V' : ℕ → Dinode} {dp : Ip} {m : DirMap}

/-- The directory `dp` is locked, and it is the map `m`. -/
structure DirAt (dp : Ip) (s : State) (V : ℕ → Dinode) (m : DirMap) : Prop where
  rep : Consistent none s V
  log : LogOk s
  locked : (s.itable dp).locked = true
  type : (V (s.itable dp).inum).type = T_DIR
  size : 16 ∣ (V (s.itable dp).inum).size
  map : IsMap (dirSlots (bytesOf s.blk (V (s.itable dp).inum)))
    ((V (s.itable dp).inum).size / 16) m

/-- There is an entry of the inode table for the inode with the name. -/
def CanLookup (dp : Ip) (name : Name) (s : State) : Prop :=
  ∀ k i, lookupEntry (bytesOf s.blk (s.itable dp).din) name.1 = some (k, i) → CanGet s i

/-- There are blocks for another entry, and there is room for them in the log. -/
def CanWrite (dp : Ip) (s : State) : Prop :=
  ∀ off ≤ (s.itable dp).din.size, off + 16 ≤ MAXFILE * BSIZE →
    WriteRoom dp off 16 s

/-- What the caller of an operation provides. -/
def DirOp.Provided (dp : Ip) (s : State) : DirOp → Prop
  | .beginOp => (Logging.beginOp s.log).isSome
  | .endOp => 0 < s.log.outstanding ∧ s.log.committing = false
  | .lookup name => CanLookup dp name s
  | .link name _ =>
    CanLookup dp name s ∧ CanWrite dp s ∧ (s.itable dp).din.size < MAXFILE * BSIZE
  | .erase name => CanLookup dp name s ∧ CanWrite dp s

def DirProvided (dp : Ip) : State → List DirOp → Prop
  | _, [] => True
  | s, o :: os => o.Provided dp s ∧ ∀ r s', o.exec dp s = .ok (r, s') → DirProvided dp s' os

theorem CanWrite.sameTable (h : CanWrite dp s) (hs : SameTable s s')
    (href : 0 < (s.itable dp).ref) : CanWrite dp s' := by
  have hdp := hs.kept dp href
  have ho := hs.only
  unfold OnlyTable at ho
  intro off hoff hmax
  rw [hdp] at hoff
  obtain ⟨hb, hm⟩ := h off hoff hmax
  have hneeds : needs s' dp off 16 = needs s dp off 16 := by
    unfold needs
    rw [hdp, ho]
  have hnew : unlogged s' dp off 16 = unlogged s dp off 16 := by
    unfold unlogged
    rw [hdp, ho]
  have hload : ∀ w, logLoad s' dp w = logLoad s dp w := by
    intro w
    unfold logLoad
    rw [hdp, ho]
  have hmiss : missing s' dp off 16 = missing s dp off 16 := by
    unfold missing
    rw [hdp, ho]
  have hfree : freeBlocks s' = freeBlocks s := by
    unfold freeBlocks
    rw [ho]
  unfold WriteRoom
  rw [hmiss, hfree, hneeds, hnew]
  refine ⟨⟨?_, ?_⟩, hm⟩
  · rw [ho]
    exact hb.trans
  · rw [hload, ho]
    exact hb.log

theorem Consistent.size_le {i : ℕ} (h : Consistent none s V) : (V i).size ≤ MAXFILE * BSIZE := by
  by_contra hlt
  refine h.full i MAXFILE (not_le.mp hlt) ?_
  unfold fileBlock fileSlot
  exact slot_beyond (by rw [if_neg (by decide)]; exact Nat.lt_succ_self _)

section Step

variable (h : DirAt dp s V m)
include h

theorem DirAt.held : 0 < (s.itable dp).ref ∧ (s.itable dp).valid = true :=
  h.rep.table.locked dp h.locked

theorem DirAt.din : (s.itable dp).din = V (s.itable dp).inum := h.rep.table.held h.locked

theorem DirAt.sameTable (hs : SameTable s s') : DirAt dp s' V m := by
  have hdp := hs.kept dp h.held.1
  have hblk : s'.blk = s.blk := by rw [hs.only]
  have hlog : LogOk s' := by
    rw [hs.only]
    exact ⟨h.log.size, h.log.length, h.log.above⟩
  refine ⟨h.rep.onlyTable hs.only (hs.table h.rep.table), hlog, ?_, ?_, ?_, ?_⟩ <;> rw [hdp]
  · exact h.locked
  · exact h.type
  · exact h.size
  · rw [hblk]
    exact h.map

/-- `dirlookup`, and what the caller does with the reference. -/
theorem DirAt.dirlookup {E : Panic × State → Prop} {Q : Option (Ip × ℕ) → State → Prop}
    (name : Name) (hget : CanLookup dp name s)
    (hfound : ∀ k i ip s', m name.key = some (k, i) → Gets i ip s s' → Q (some (ip, 16 * k)) s')
    (hnone : m name.key = none → Q none s) : Spec (dirlookup dp name.1) s Q E := by
  have hmap := IsMap.lookupEntry (m := m) (by rw [bytesOf_length]; exact h.map) name.1
  refine h.rep.dirlookup h.held.1 h.held.2 h.type h.size (fun k i hk => ?_) fun hno => ?_
  · have hroom : CanGet s i := by
      refine hget k i ?_
      rwa [h.din]
    refine (iget_gets (absurd hroom)).imp fun ip s' hg => ?_
    exact hfound k i ip s' (hmap.symm.trans hk) hg
  · exact hnone (hmap.symm.trans hno)

theorem DirAt.writeEntry {k : ℕ} {de : List UInt8} {e : Panic}
    (hroom : WriteRoom dp (16 * k) 16 s)
    (hde : de.length = 16) (hk : 16 * k ≤ (V (s.itable dp).inum).size)
    (hmax : 16 * k + 16 ≤ MAXFILE * BSIZE) {m' : DirMap}
    (hmap : IsMap (update (dirSlots (bytesOf s.blk (V (s.itable dp).inum))) k (parse de))
      (max ((V (s.itable dp).inum).size / 16) (k + 1)) m') :
    Spec (writeEntry dp (16 * k) de e) s (fun _ s' => ∃ V', DirAt dp s' V' m') fun _ => False := by
  have hsrc : (Mem.kernel de).Ready 16 := ⟨hde.ge, fun _ _ _ => rfl⟩
  have hbytes : (List.range 16).map (Mem.kernel de).byte = de := by
    apply List.ext_getElem
    · simp [hde]
    · intro j h1 h2
      simp [Mem.byte, List.getD_eq_getElem?_getD, h2]
  unfold Fs.writeEntry
  rw [spec_bind]
  refine (writei_total h.rep h.locked hroom hk hmax hsrc).imp ?_
  rintro r s' ⟨rfl, V', hw⟩
  dsimp only
  rw [if_pos rfl, spec_pure]
  have hbytesOf := hw.bytesOf_eq hsrc.reach hk
  rw [hbytes] at hbytesOf
  have hdp : s'.itable dp = { s.itable dp with din := V' (s.itable dp).inum } := by
    rw [hw.itable, update_self]
  have hsize := hw.size_eq
  refine ⟨V', hw.rep, h.log.logs hw.toLogOnly, ?_, ?_, ?_, ?_⟩ <;> rw [hdp]
  · exact h.locked
  · show (V' (s.itable dp).inum).type = T_DIR
    rw [hw.head]
    exact h.type
  · show 16 ∣ (V' (s.itable dp).inum).size
    have := h.size
    rw [hsize]
    omega
  · show IsMap (dirSlots (bytesOf s'.blk (V' (s.itable dp).inum)))
      ((V' (s.itable dp).inum).size / 16) m'
    rw [hbytesOf, dirSlots_overwrite (by rwa [bytesOf_length]) hde, hsize]
    have hlen : max (V (s.itable dp).inum).size (16 * k + 16) / 16 =
        max ((V (s.itable dp).inum).size / 16) (k + 1) := by
      have := h.size
      omega
    rwa [hlen]

theorem DirAt.beginOp (ho : (Logging.beginOp s.log).isSome) :
    Spec Fs.beginOp s (fun _ s' => DirAt dp s' V m) fun _ => False := by
  obtain ⟨l, hl⟩ := Option.isSome_iff_exists.mp ho
  have hl' := (Logging.beginOp_eq_some hl).2
  unfold Fs.beginOp
  rw [spec_get_bind, hl]
  dsimp only
  rw [spec_modify]
  subst hl'
  exact ⟨h.rep.congr rfl rfl fun _ _ => rfl, ⟨h.log.size, h.log.length, h.log.above⟩, h.locked, h.type,
    h.size, h.map⟩

theorem DirAt.endOp (ho : 0 < s.log.outstanding ∧ s.log.committing = false) :
    Spec Fs.endOp s (fun _ s' => DirAt dp s' V m) fun _ => False := by
  refine (endOp_spec h.rep.owned.layout h.log ho.1 ho.2).imp fun _ s' he => ?_
  have htab : s'.itable = s.itable := by rw [he.state]
  have hbytes : bytesOf s'.blk (V (s.itable dp).inum) = bytesOf s.blk (V (s.itable dp).inum) := by
    refine List.map_congr_left fun o _ => ?_
    exact content_of_data h.rep.owned.slots (fun c hc =>
      he.blk c (h.rep.owned.layout.inodestart_lt_dataStart.le.trans hc)) _ o
  refine ⟨he.consistent h.rep, he.logOk h.log, ?_, ?_, ?_, ?_⟩ <;> rw [htab]
  · exact h.locked
  · exact h.type
  · exact h.size
  · rw [hbytes]
    exact h.map

theorem DirAt.lookup (name : Name) (hget : CanLookup dp name s) :
    Spec (DirOp.exec dp (.lookup name)) s (fun r s' =>
      DirStep m (.lookup name) r m ∧ DirAt dp s' V m) fun _ => False := by
  have hstep := DirStep.lookup (m := m) name
  simp only [DirOp.exec]
  rw [spec_bind]
  refine h.dirlookup name hget (fun k i ip s1 hm hg => ?_) fun hm => ?_
  · rw [hm, Option.map_some] at hstep
    dsimp only
    rw [spec_get_bind, spec_bind]
    refine hg.iput.imp fun _ s2 hs => ?_
    rw [spec_pure, hg.inum]
    exact ⟨hstep, h.sameTable hs⟩
  · rw [hm, Option.map_none] at hstep
    dsimp only
    rw [spec_pure]
    exact ⟨hstep, h⟩

theorem DirAt.link (name : Name) (inum : Inum) (hget : CanLookup dp name s) (hroom : CanWrite dp s)
    (hsize : (s.itable dp).din.size < MAXFILE * BSIZE) :
    Spec (dirlink dp name.1 inum.1) s (fun r s' => ∃ V' m',
      DirStep m (.link name inum) (.linked r) m' ∧ DirAt dp s' V' m') fun _ => False := by
  unfold dirlink
  rw [spec_bind]
  refine h.dirlookup name hget (fun k i ip s1 hm hg => ?_) fun hm => ?_
  · dsimp only
    rw [spec_bind]
    refine hg.iput.imp fun _ s2 hs => ?_
    rw [spec_pure]
    exact ⟨V, m, .linkOld name inum (by rw [hm]; nofun), h.sameTable hs⟩
  · dsimp only
    rw [spec_get_bind, spec_bind, h.din]
    refine (h.rep.emptyEntryLoop h.held.1 h.held.2 (k := 0) h.size (by omega) (Nat.zero_le _)
      fun j hj => absurd hj (Nat.not_lt_zero j)).imp ?_
    rintro off s1 ⟨rfl, rfl⟩
    set l := bytesOf s1.blk (V (s1.itable dp).inum) with hl
    have hlen : l.length = (V (s1.itable dp).inum).size := bytesOf_length _ _
    have hle : firstEmpty l ≤ (V (s1.itable dp).inum).size / 16 := hlen ▸ firstEmpty_le l
    have h16 := h.size
    rw [h.din] at hsize
    have hmax : 16 * firstEmpty l + 16 ≤ MAXFILE * BSIZE := by
      have : 16 ∣ MAXFILE * BSIZE := by decide
      omega
    have hfree : firstEmpty l < (V (s1.itable dp).inum).size / 16 →
        dirSlots l (firstEmpty l) = none := fun hlt => firstEmpty_free (by rwa [hlen])
    have hmap := h.map.put hm hle hfree inum.1
    rw [← parse_dirent name inum] at hmap
    have hoff : 16 * firstEmpty l ≤ (V (s1.itable dp).inum).size := by omega
    rw [spec_bind]
    refine (h.writeEntry (hroom _ (by rwa [h.din]) hmax) (dirent_length _ _) hoff hmax hmap).imp ?_
    rintro _ s2 ⟨V', h'⟩
    rw [spec_pure]
    refine ⟨V', _, .linkNew name inum (firstEmpty l) hm fun key i hkey => ?_, h'⟩
    obtain ⟨hlt, he⟩ := (h.map key _ i).mp hkey
    rw [hfree hlt] at he
    cases he

theorem DirAt.erase (name : Name) (hget : CanLookup dp name s) (hroom : CanWrite dp s) :
    Spec (eraseEntry dp name.1) s (fun r s' => ∃ V' m',
      DirStep m (.erase name) (.erased r) m' ∧ DirAt dp s' V' m') fun _ => False := by
  unfold eraseEntry
  rw [spec_bind]
  refine h.dirlookup name hget (fun k i ip s1 hm hg => ?_) fun hm => ?_
  · dsimp only
    rw [spec_bind]
    refine hg.iput.imp fun _ s2 hs => ?_
    have h2 := h.sameTable hs
    obtain ⟨hk, -⟩ := (h2.map _ k i).mp hm
    have hoff : 16 * k + 16 ≤ (V (s2.itable dp).inum).size := by omega
    have hmax := hoff.trans h2.rep.size_le
    have hmap := h2.map.erase hm
    rw [← parse_zero, ← Nat.max_eq_left hk] at hmap
    have hroom2 := hroom.sameTable hs h.held.1 (16 * k) (by rw [h2.din]; omega) hmax
    rw [spec_bind]
    refine (h2.writeEntry hroom2 List.length_replicate (by omega) hmax hmap).imp ?_
    rintro _ s3 ⟨V', h'⟩
    rw [spec_pure]
    exact ⟨V', _, .eraseOld name (by rw [hm]; nofun), h'⟩
  · dsimp only
    rw [spec_pure]
    exact ⟨V, m, .eraseNone name hm, h⟩

theorem DirAt.step {o : DirOp} (ho : o.Provided dp s) :
    Spec (o.exec dp) s (fun r s' => ∃ V' m', DirStep m o r m' ∧ DirAt dp s' V' m')
      fun _ => False := by
  cases o with
  | beginOp =>
    refine (h.beginOp ho).bind fun _ s' h' => ?_
    exact spec_pure.mpr ⟨V, m, .beginOp, h'⟩
  | endOp =>
    refine (h.endOp ho).bind fun _ s' h' => ?_
    exact spec_pure.mpr ⟨V, m, .endOp, h'⟩
  | lookup name => exact (h.lookup name ho).imp fun r s' h' => ⟨V, m, h'⟩
  | link name inum =>
    refine (h.link name inum ho.1 ho.2.1 ho.2.2).bind fun r s' h' => ?_
    exact spec_pure.mpr h'
  | erase name =>
    refine (h.erase name ho.1 ho.2).bind fun r s' h' => ?_
    exact spec_pure.mpr h'

end Step

/-! ## Any number of operations -/

theorem DirAt.run {ops : List DirOp} (h : DirAt dp s V m) (hp : DirProvided dp s ops) :
    Spec (dirExec dp ops) s (fun rs s' => ∃ V' m', DirRun m ops rs m' ∧ DirAt dp s' V' m')
      fun _ => False := by
  induction ops generalizing s V m with
  | nil => exact spec_pure.mpr ⟨V, m, .nil m, h⟩
  | cons o os ih =>
    obtain ⟨ho, hos⟩ := hp
    unfold dirExec
    rw [List.mapM_cons]
    obtain ⟨r, s1, hr, V1, m1, hstep, h1⟩ := (h.step ho).exists_ok
    rw [spec_bind, spec_of_eq_ok hr, spec_bind]
    refine (ih h1 (hos r s1 hr)).imp ?_
    rintro rs s' ⟨V', m', hrun, h'⟩
    exact spec_pure.mpr ⟨V', m', .cons hstep hrun, h'⟩

/-- A directory with operations on it is a map from names to inode numbers. The operations end; each
of them does to the map what `DirStep` says, the last one on a name decides about this name, and no
two entries have the same name. -/
theorem directory_is_map {ops : List DirOp} (h : DirAt dp s V m) (hp : DirProvided dp s ops) :
    Spec (dirExec dp ops) s (fun rs s' => ∃ m', DirRun m ops rs m' ∧
      (∀ name : Name, lookupEntry (bytesOf s'.blk (s'.itable dp).din) name.1 = m' name.key) ∧
      (∀ key, (m' key).map Prod.snd = lastLink key ops rs ((m key).map Prod.snd)) ∧
      ∀ j k key a b, 16 * j < (s'.itable dp).din.size → 16 * k < (s'.itable dp).din.size →
        parse (dirEntry (bytesOf s'.blk (s'.itable dp).din) j) = some (key, a) →
        parse (dirEntry (bytesOf s'.blk (s'.itable dp).din) k) = some (key, b) → j = k)
      fun _ => False := by
  refine (h.run hp).imp ?_
  rintro rs s' ⟨V', m', hrun, h'⟩
  rw [h'.din]
  refine ⟨m', hrun, fun name => ?_, hrun.lastLink, fun j k key a b hj hk ha hb => ?_⟩
  · exact IsMap.lookupEntry (by rw [bytesOf_length]; exact h'.map) name.1
  · have h16 := h'.size
    exact h'.map.unique (by omega) (by omega) ha hb

/-! ## An empty directory -/

section Example

open Mkfs

def rootInodes : ℕ → Dinode := update (fun _ => {}) ROOTINO { type := T_DIR, nlink := 1 }

/-- The root directory is empty; one transaction is open. -/
def rootState : State :=
  stateOf rootInodes (diskOf rootInodes (fun _ _ => 0) 0 [ROOTINO]) ROOTINO true

theorem rootState_consistent : Consistent none rootState rootInodes := by
  refine SmallFiles.consistent ⟨by decide, by decide, fun i hi => ?_, by decide, ?_, by decide,
    by decide, by decide, fun _ _ => rfl⟩ List.mem_cons_self
  · exact update_of_ne (by simpa using hi) ..
  · rintro i hi t -
    obtain rfl := List.mem_singleton.mp hi
    rfl

theorem rootState_dirAt : DirAt ⟨0, by decide⟩ rootState rootInodes fun _ => none :=
  ⟨rootState_consistent, ⟨by decide, by decide, by decide⟩, rfl, by decide, by decide,
    isMap_empty _⟩

section Decidable

variable (dp : Ip) (s : State)

instance (name : Name) : Decidable (CanLookup dp name s) :=
  haveI : DecidablePred (CanGet s) := fun _ => inferInstanceAs (Decidable (∃ _, _))
  decidable_of_iff
    (∀ x ∈ lookupEntry (bytesOf s.blk (s.itable dp).din) name.1, CanGet s x.2)
    ⟨fun h k i hx => h (k, i) hx, fun h x hx => h x.1 x.2 hx⟩

instance (w : Needs) (k : ℕ) : Decidable (Budget dp w k s) :=
  decidable_of_iff (0 < s.log.outstanding ∧ logLoad s dp w + k < capacity s.log)
    ⟨fun h => ⟨h.1, h.2⟩, fun h => ⟨h.1, h.2⟩⟩

/-- In a directory of one block it does not matter where the entry is. -/
theorem canWrite_iff (hsize : (s.itable dp).din.size + 16 ≤ BSIZE) :
    CanWrite dp s ↔ WriteRoom dp 0 16 s := by
  refine ⟨fun h => h 0 (Nat.zero_le _) (by decide), fun h off hoff _ => ?_⟩
  have ht : touched off 16 = touched 0 16 := by
    refine Finset.filter_congr fun bn _ => ?_
    unfold BSIZE at *
    omega
  unfold WriteRoom needs unlogged missing at *
  rwa [ht]

theorem freeBlocks_pos (h : 0 < s.sb.size ∧ inUse s.sb s.blk (s.sb.size - 1) = false) :
    1 ≤ freeBlocks s := by
  refine Finset.card_pos.mpr ⟨s.sb.size - 1, ?_⟩
  rw [Finset.mem_filter, Finset.mem_range]
  exact ⟨by omega, h.2⟩

instance (off : ℕ) : Decidable (WriteRoom dp off 16 s) :=
  -- where one block is enough, the free blocks need not be counted
  decidable_of_iff (Budget dp (needs s dp off 16) (unlogged s dp off 16).card s ∧
      (missing s dp off 16 ≤ 1 ∧ (0 < s.sb.size ∧ inUse s.sb s.blk (s.sb.size - 1) = false) ∨
        missing s dp off 16 ≤ freeBlocks s))
    (and_congr_right' (or_iff_right_of_imp fun h => h.1.trans (freeBlocks_pos s h.2)))

instance : Decidable (CanWrite dp s) :=
  if h : (s.itable dp).din.size + 16 ≤ BSIZE then decidable_of_iff' _ (canWrite_iff dp s h)
  else inferInstanceAs (Decidable (∀ off ≤ _, _ → _))

instance : DecidablePred (DirOp.Provided dp s)
  | .beginOp => inferInstanceAs (Decidable (_ = true))
  | .endOp | .erase _ => inferInstanceAs (Decidable (_ ∧ _))
  | .lookup _ => inferInstanceAs (Decidable (CanLookup ..))
  | .link _ _ => inferInstanceAs (Decidable (_ ∧ _ ∧ _))

instance decidableDirProvided : ∀ (s : State) (ops : List DirOp), Decidable (DirProvided dp s ops)
  | _, [] => isTrue trivial
  | s, o :: os =>
    haveI : Decidable (∀ r s', o.exec dp s = .ok (r, s') → DirProvided dp s' os) :=
      match o.exec dp s with
      | .error _ => isTrue nofun
      | .ok (_, s') =>
        haveI := decidableDirProvided s' os
        decidable_of_iff (DirProvided dp s' os) (by simp)
    inferInstanceAs (Decidable (_ ∧ _))

end Decidable

/-- Two names are entered, the first is erased, and a third takes its entry. -/
def reuseOps : List DirOp :=
  [.link ⟨[97], by decide⟩ ⟨5, by decide⟩, .link ⟨[98], by decide⟩ ⟨6, by decide⟩,
    .erase ⟨[97], by decide⟩, .link ⟨[99], by decide⟩ ⟨7, by decide⟩, .endOp]

theorem directory_is_map_reuse : ∃ rs s' m',
    dirExec ⟨0, by decide⟩ reuseOps rootState = .ok (rs, s') ∧ DirRun (fun _ => none) reuseOps rs m' ∧
    m' [97] = none ∧ m' [98] = some (1, 6) ∧ m' [99] = some (0, 7) ∧
    ∀ key, (m' key).map Prod.snd = lastLink key reuseOps rs none := by
  have hops : DirProvided ⟨0, by decide⟩ rootState reuseOps := by decide +kernel
  have heval : (dirExec ⟨0, by decide⟩ reuseOps rootState).toOption.map (fun r =>
      [[97], [98], [99]].map (lookupEntry (bytesOf r.2.blk (r.2.itable ⟨0, by decide⟩).din))) =
        some [none, some (1, 6), some (0, 7)] := by decide +kernel
  obtain ⟨rs, s', hrun, m', hm', hlook, hlast, -⟩ :=
    (directory_is_map rootState_dirAt hops).exists_ok
  rw [hrun] at heval
  simp only [Except.toOption, Option.map_some, Option.some.injEq, List.map_cons, List.map_nil,
    List.cons.injEq, and_true] at heval
  obtain ⟨ha, hb, hc⟩ := heval
  refine ⟨rs, s', m', hrun, hm', ?_, ?_, ?_, hlast⟩
  · exact (hlook ⟨[97], by decide⟩).symm.trans ha
  · exact (hlook ⟨[98], by decide⟩).symm.trans hb
  · exact (hlook ⟨[99], by decide⟩).symm.trans hc

end Example

end TatakOS.Fs
