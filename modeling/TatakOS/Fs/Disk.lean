import Mathlib.Data.List.TakeWhile
import Mathlib.Data.Nat.Bitwise
import Mathlib.Logic.Function.Basic
import TatakOS.Log.Header

/-!
# The format of the disk

`fs.h`: the super block, the inodes, the bitmap of the blocks and the directory entries, as bytes
of blocks. Both `mkfs` and the kernel read and write them with these functions. What is stored is
read back, and nothing else changes.
-/

namespace TatakOS.Fs

open Function

abbrev Block := Bytes

def BSIZE : ℕ := 1024
def NDIRECT : ℕ := 12
def NINDIRECT : ℕ := BSIZE / 4
def MAXFILE : ℕ := NDIRECT + NINDIRECT
/-- Inodes per block. -/
def IPB : ℕ := BSIZE / 64
/-- Bitmap bits per block. -/
def BPB : ℕ := BSIZE * 8
def DIRSIZ : ℕ := 14
def ROOTINO : ℕ := 1
def FSMAGIC : ℕ := 0x10203040

def T_DIR : ℕ := 1
def T_FILE : ℕ := 2
def T_DEVICE : ℕ := 3

/-! ## The super block -/

structure Superblock where
  magic : ℕ
  size : ℕ
  nblocks : ℕ
  ninodes : ℕ
  nlog : ℕ
  logstart : ℕ
  inodestart : ℕ
  bmapstart : ℕ
  deriving DecidableEq, Repr

def Superblock.get (d : Block) : Superblock where
  magic := d.get 0 4
  size := d.get 4 4
  nblocks := d.get 8 4
  ninodes := d.get 12 4
  nlog := d.get 16 4
  logstart := d.get 20 4
  inodestart := d.get 24 4
  bmapstart := d.get 28 4

def Superblock.words (sb : Superblock) : List ℕ :=
  [sb.magic, sb.size, sb.nblocks, sb.ninodes, sb.nlog, sb.logstart, sb.inodestart, sb.bmapstart]

def Superblock.put (sb : Superblock) (d : Block) : Block := Logging.putWords d 0 sb.words

/-- Block containing inode `i`. -/
def Superblock.IBLOCK (sb : Superblock) (i : ℕ) : ℕ := i / IPB + sb.inodestart

/-- Block of free map containing bit for block `b`. -/
def Superblock.BBLOCK (sb : Superblock) (b : ℕ) : ℕ := b / BPB + sb.bmapstart

/-- The super block that `mkfs` writes is the one that is read. -/
theorem Superblock.get_put {sb : Superblock} (h : ∀ w ∈ sb.words, w < 2 ^ 32) (d : Block) :
    Superblock.get (sb.put d) = sb := by
  have hword : ∀ i (hi : i < sb.words.length), (sb.put d).get (4 * i) 4 = sb.words[i] := by
    intro i hi
    have := Logging.get_putWords (d := d) (o := 0) h hi
    rwa [Nat.zero_add] at this
  have hlen : sb.words.length = 8 := rfl
  unfold Superblock.get
  rw [hword 0 (by omega), hword 1 (by omega), hword 2 (by omega), hword 3 (by omega),
    hword 4 (by omega), hword 5 (by omega), hword 6 (by omega), hword 7 (by omega)]
  rfl

/-! ## Inodes -/

/-- `struct dinode`. A `short` is its 16 bits. -/
@[ext] structure Dinode where
  type : ℕ := 0
  major : ℕ := 0
  minor : ℕ := 0
  nlink : ℕ := 0
  size : ℕ := 0
  addrs : ℕ → ℕ := fun _ => 0

/-- The inode at offset `o` of a block. -/
def Dinode.get (d : Block) (o : ℕ) : Dinode where
  type := d.get o 2
  major := d.get (o + 2) 2
  minor := d.get (o + 4) 2
  nlink := d.get (o + 6) 2
  size := d.get (o + 8) 4
  addrs k := if k ≤ NDIRECT then d.get (o + 12 + 4 * k) 4 else 0

def Dinode.put (x : Dinode) (d : Block) (o : ℕ) : Block :=
  let d := d.set o 2 x.type
  let d := d.set (o + 2) 2 x.major
  let d := d.set (o + 4) 2 x.minor
  let d := d.set (o + 6) 2 x.nlink
  let d := d.set (o + 8) 4 x.size
  Logging.putWords d (o + 12) ((List.range (NDIRECT + 1)).map x.addrs)

/-- The fields are numbers of their types. -/
structure Dinode.Fits (x : Dinode) : Prop where
  type : x.type < 2 ^ 16
  major : x.major < 2 ^ 16
  minor : x.minor < 2 ^ 16
  nlink : x.nlink < 2 ^ 16
  size : x.size < 2 ^ 32
  addrs : ∀ k, x.addrs k < 2 ^ 32
  rest : ∀ k, NDIRECT < k → x.addrs k = 0

theorem Dinode.get_fits (d : Block) (o : ℕ) : (Dinode.get d o).Fits := by
  refine ⟨Bytes.get_lt, Bytes.get_lt, Bytes.get_lt, Bytes.get_lt, Bytes.get_lt, fun k => ?_,
    fun k hk => ?_⟩
  · unfold Dinode.get
    dsimp only
    split_ifs
    · exact Bytes.get_lt
    · norm_num
  · unfold Dinode.get
    dsimp only
    rw [if_neg (by omega)]

theorem putWords_of_lt {d : Bytes} {o i : ℕ} {ws : List ℕ} (h : i < o ∨ o + 4 * ws.length ≤ i) :
    Logging.putWords d o ws i = d i := by
  induction ws generalizing d o with
  | nil => rfl
  | cons w ws ih =>
    simp only [List.length_cons] at h
    unfold Logging.putWords
    rw [ih (by omega), Bytes.set_of_lt (by omega)]

theorem Dinode.put_of_lt {x : Dinode} {d : Block} {o i : ℕ} (h : i < o ∨ o + 64 ≤ i) :
    x.put d o i = d i := by
  unfold Dinode.put
  rw [putWords_of_lt (by simp [NDIRECT]; omega), Bytes.set_of_lt (by omega),
    Bytes.set_of_lt (by omega), Bytes.set_of_lt (by omega), Bytes.set_of_lt (by omega),
    Bytes.set_of_lt (by omega)]

theorem Dinode.get_congr {d d' : Block} {o : ℕ} (h : ∀ i, o ≤ i → i < o + 64 → d i = d' i) :
    Dinode.get d o = Dinode.get d' o := by
  have hget : ∀ o' w, o ≤ o' → o' + w ≤ o + 64 → d.get o' w = d'.get o' w := fun o' w h1 h2 =>
    Bytes.get_congr fun i hi hi' => h i (by omega) (by omega)
  ext1
  · exact hget _ _ (by omega) (by omega)
  · exact hget _ _ (by omega) (by omega)
  · exact hget _ _ (by omega) (by omega)
  · exact hget _ _ (by omega) (by omega)
  · exact hget _ _ (by omega) (by omega)
  · funext k
    unfold Dinode.get
    dsimp only
    by_cases hk : k ≤ NDIRECT
    · rw [if_pos hk, if_pos hk]
      unfold NDIRECT at hk
      exact hget _ _ (by omega) (by omega)
    · rw [if_neg hk, if_neg hk]

theorem get_putWords_of_lt {d : Bytes} {o o' w : ℕ} {ws : List ℕ}
    (h : o' + w ≤ o ∨ o + 4 * ws.length ≤ o') :
    (Logging.putWords d o ws).get o' w = d.get o' w :=
  Bytes.get_congr fun _ _ _ => putWords_of_lt (by omega)

/-- An inode is read as it was written. -/
theorem Dinode.get_put {x : Dinode} (h : x.Fits) (d : Block) (o : ℕ) :
    Dinode.get (x.put d o) o = x := by
  have hlen : ((List.range (NDIRECT + 1)).map x.addrs).length = 13 := by simp [NDIRECT]
  have h16 : 256 ^ 2 = 2 ^ 16 := by norm_num
  have h32 : 256 ^ 4 = 2 ^ 32 := by norm_num
  unfold Dinode.put
  ext1
  · show Bytes.get _ o 2 = x.type
    rw [get_putWords_of_lt (by omega), Bytes.get_set_of_disjoint (by omega),
      Bytes.get_set_of_disjoint (by omega), Bytes.get_set_of_disjoint (by omega),
      Bytes.get_set_of_disjoint (by omega), Bytes.get_set_same, h16, Nat.mod_eq_of_lt h.type]
  · show Bytes.get _ (o + 2) 2 = x.major
    rw [get_putWords_of_lt (by omega), Bytes.get_set_of_disjoint (by omega),
      Bytes.get_set_of_disjoint (by omega), Bytes.get_set_of_disjoint (by omega),
      Bytes.get_set_same, h16, Nat.mod_eq_of_lt h.major]
  · show Bytes.get _ (o + 4) 2 = x.minor
    rw [get_putWords_of_lt (by omega), Bytes.get_set_of_disjoint (by omega),
      Bytes.get_set_of_disjoint (by omega), Bytes.get_set_same, h16, Nat.mod_eq_of_lt h.minor]
  · show Bytes.get _ (o + 6) 2 = x.nlink
    rw [get_putWords_of_lt (by omega), Bytes.get_set_of_disjoint (by omega), Bytes.get_set_same,
      h16, Nat.mod_eq_of_lt h.nlink]
  · show Bytes.get _ (o + 8) 4 = x.size
    rw [get_putWords_of_lt (by omega), Bytes.get_set_same, h32, Nat.mod_eq_of_lt h.size]
  · funext k
    unfold Dinode.get
    dsimp only
    by_cases hk : k ≤ NDIRECT
    · have hk' : k < 13 := by
        unfold NDIRECT at hk
        omega
      rw [if_pos hk, Logging.get_putWords (i := k) (fun b hb => ?_) (by omega)]
      · simp
      · obtain ⟨m, -, rfl⟩ := List.mem_map.mp hb
        exact h.addrs m
    · rw [if_neg hk, h.rest k (by omega)]

theorem Dinode.Fits.setAddr {x : Dinode} (h : x.Fits) {s b : ℕ} (hs : s ≤ NDIRECT) (hb : b < 2 ^ 32) :
    ({ x with addrs := update x.addrs s b } : Dinode).Fits := by
  refine ⟨h.type, h.major, h.minor, h.nlink, h.size, fun k => ?_, fun k hk => ?_⟩
  · by_cases e : k = s
    · subst e
      simpa using hb
    · simpa [e] using h.addrs k
  · have e : k ≠ s := by omega
    simpa [e] using h.rest k hk

/-- The inode with number `i` on a disk. -/
def dinode (sb : Superblock) (d : ℕ → Block) (i : ℕ) : Dinode :=
  Dinode.get (d (sb.IBLOCK i)) (64 * (i % IPB))

def setDinode (sb : Superblock) (d : ℕ → Block) (i : ℕ) (x : Dinode) : ℕ → Block :=
  update d (sb.IBLOCK i) (x.put (d (sb.IBLOCK i)) (64 * (i % IPB)))

section

variable {sb : Superblock} {d d' : ℕ → Block} {i j : ℕ} {x : Dinode}

theorem dinode_setDinode_self (h : x.Fits) : dinode sb (setDinode sb d i x) i = x := by
  unfold dinode setDinode
  rw [update_self]
  exact Dinode.get_put h _ _

/-- The inodes in a block do not overlap. -/
theorem dinode_setDinode_of_ne (e : j ≠ i) : dinode sb (setDinode sb d i x) j = dinode sb d j := by
  unfold dinode setDinode
  by_cases hb : sb.IBLOCK j = sb.IBLOCK i
  · rw [hb, update_self]
    refine Dinode.get_congr fun k hk hk' => Dinode.put_of_lt ?_
    have hmod : j % IPB ≠ i % IPB := by
      intro hm
      unfold Superblock.IBLOCK at hb
      have h1 := Nat.div_add_mod j IPB
      have h2 := Nat.div_add_mod i IPB
      rw [hm, show j / IPB = i / IPB by omega, h2] at h1
      exact e h1.symm
    omega
  · rw [update_of_ne hb]

theorem dinode_congr (h : d (sb.IBLOCK i) = d' (sb.IBLOCK i)) : dinode sb d i = dinode sb d' i := by
  unfold dinode
  rw [h]

theorem setDinode_of_ne {b : ℕ} (h : b ≠ sb.IBLOCK i) : setDinode sb d i x b = d b :=
  update_of_ne h _ _

theorem dinode_fits : (dinode sb d i).Fits := Dinode.get_fits _ _

end

/-! ## The bitmap -/

/-- `m` in `balloc` and `bfree`. -/
def bitMask (i : ℕ) : UInt8 := 1 <<< UInt8.ofNat (i % 8)

/-- Bit `i` of a block. -/
def bitOf (d : Block) (i : ℕ) : Bool := d (i / 8) &&& bitMask i ≠ 0

def setBit (d : Block) (i : ℕ) : Block := update d (i / 8) (d (i / 8) ||| bitMask i)

def clearBit (d : Block) (i : ℕ) : Block := update d (i / 8) (d (i / 8) &&& ~~~bitMask i)

theorem bitMask_eq (i : ℕ) : (bitMask i).toBitVec = 1#8 <<< (i % 8) := by
  have hall : ∀ k < 8, (1 <<< UInt8.ofNat k : UInt8).toBitVec = 1#8 <<< k := by decide
  exact hall (i % 8) (Nat.mod_lt _ (by norm_num))

theorem bitOf_eq (d : Block) (i : ℕ) : bitOf d i = (d (i / 8)).toBitVec.getLsbD (i % 8) := by
  have h : i % 8 < 8 := Nat.mod_lt _ (by norm_num)
  have hiff : d (i / 8) &&& bitMask i = 0 ↔ (d (i / 8)).toBitVec.getLsbD (i % 8) = false := by
    rw [← UInt8.toBitVec_inj, UInt8.toBitVec_and, bitMask_eq]
    constructor
    · intro hz
      have := congrArg (fun v => v.getLsbD (i % 8)) hz
      simpa [h] using this
    · intro hz
      refine BitVec.eq_of_getLsbD_eq fun k hk => ?_
      by_cases e : k = i % 8
      · subst e
        simp [hz]
      · simp
        omega
  unfold bitOf
  by_cases hz : d (i / 8) &&& bitMask i = 0
  · rw [hiff.mp hz]
    simp [hz]
  · have : (d (i / 8)).toBitVec.getLsbD (i % 8) = true := by
      by_contra hn
      exact hz (hiff.mpr (by simpa using hn))
    rw [this]
    simp [hz]

theorem bit_eq_iff {i j : ℕ} (h : j / 8 = i / 8) : j = i ↔ j % 8 = i % 8 := by omega

theorem bitOf_setBit (d : Block) (i j : ℕ) :
    bitOf (setBit d i) j = (decide (j = i) || bitOf d j) := by
  rw [bitOf_eq, bitOf_eq]
  unfold setBit
  by_cases h : j / 8 = i / 8
  · have hj : j % 8 < 8 := Nat.mod_lt _ (by norm_num)
    rw [h, update_self, UInt8.toBitVec_or, bitMask_eq]
    by_cases e : j % 8 = i % 8
    · simp [bit_eq_iff h, e, Nat.mod_lt]
    · simp [bit_eq_iff h, e, hj]
      omega
  · rw [update_of_ne h]
    have e : j ≠ i := by
      rintro rfl
      exact h rfl
    simp [e]

theorem bitOf_clearBit (d : Block) (i j : ℕ) :
    bitOf (clearBit d i) j = (decide (j ≠ i) && bitOf d j) := by
  rw [bitOf_eq, bitOf_eq]
  unfold clearBit
  by_cases h : j / 8 = i / 8
  · have hj : j % 8 < 8 := Nat.mod_lt _ (by norm_num)
    rw [h, update_self, UInt8.toBitVec_and, UInt8.toBitVec_not, bitMask_eq]
    by_cases e : j % 8 = i % 8
    · simp [bit_eq_iff h, e, Nat.mod_lt]
    · simp [bit_eq_iff h, e, hj]
      omega
  · rw [update_of_ne h]
    have e : j ≠ i := by
      rintro rfl
      exact h rfl
    simp [e]

/-- Is the block marked in use? -/
def inUse (sb : Superblock) (d : ℕ → Block) (b : ℕ) : Bool := bitOf (d (sb.BBLOCK b)) (b % BPB)

/-! ## Directory entries -/

def slash : UInt8 := 47
def dot : UInt8 := 46

/-- `strncpy(de.name, name, DIRSIZ)`. -/
def nameField (name : List UInt8) : List UInt8 :=
  name.take DIRSIZ ++ List.replicate (DIRSIZ - name.length) 0

/-- `struct dirent` with the number and the name. -/
def dirent (inum : ℕ) (name : List UInt8) : List UInt8 :=
  [UInt8.ofNat inum, UInt8.ofNat (inum / 256)] ++ nameField name

/-- `de.inum`. -/
def deInum (de : List UInt8) : ℕ := (de.getD 0 0).toNat + 256 * (de.getD 1 0).toNat

/-- The string in the first `DIRSIZ` bytes. -/
def cut (name : List UInt8) : List UInt8 := (name.take DIRSIZ).takeWhile (· ≠ 0)

/-- `namecmp(s, t) == 0`. -/
def namecmp (s t : List UInt8) : Bool := cut s = cut t

/-- `de.name`. -/
def deName (de : List UInt8) : List UInt8 := de.drop 2

theorem nameField_length (name : List UInt8) : (nameField name).length = DIRSIZ := by
  unfold nameField
  simp only [List.length_append, List.length_take, List.length_replicate]
  omega

theorem dirent_length (inum : ℕ) (name : List UInt8) : (dirent inum name).length = 16 := by
  unfold dirent
  rw [List.length_append, nameField_length]
  rfl

theorem deInum_dirent {n : ℕ} (hn : n < 2 ^ 16) (name : List UInt8) :
    deInum (dirent n name) = n := by
  show (UInt8.ofNat n).toNat + 256 * (UInt8.ofNat (n / 256)).toNat = n
  rw [UInt8.toNat_ofNat', UInt8.toNat_ofNat']
  omega

theorem deName_dirent (n : ℕ) (name : List UInt8) : deName (dirent n name) = nameField name := rfl

theorem cut_of_nonul {name : List UInt8} (h : (0 : UInt8) ∉ name) : cut name = name.take DIRSIZ := by
  unfold cut
  refine List.takeWhile_eq_self_iff.mpr fun c hc => ?_
  rw [decide_eq_true_iff]
  rintro rfl
  exact h (List.mem_of_mem_take hc)

theorem cut_nameField {name : List UInt8} (h : (0 : UInt8) ∉ name) :
    cut (nameField name) = name.take DIRSIZ := by
  unfold cut
  rw [List.take_of_length_le (nameField_length name).le]
  unfold nameField
  rw [List.takeWhile_append_of_pos]
  · cases DIRSIZ - name.length with
    | zero => simp
    | succ n => simp [List.replicate_succ]
  · intro c hc
    rw [decide_eq_true_iff]
    rintro rfl
    exact h (List.mem_of_mem_take hc)

end TatakOS.Fs
