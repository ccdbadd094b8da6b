import TatakOS.Fs.Calls
import TatakOS.Fs.Read
import TatakOS.Fs.WellFormed

/-!
# The kernel reads what `mkfs` wrote

On a fresh image the kernel finds every file under its name, with its length and its bytes.
-/

namespace TatakOS.Fs

open Function
open ProcTable (Slot)

/-! ## Paths -/

theorem skipelem_single {name : List UInt8} (hne : name ≠ []) (hs : slash ∉ name) :
    skipelem (slash :: name) = some (name.take DIRSIZ, []) := by
  have hall : ∀ c ∈ name, decide (c ≠ slash) = true := by
    intro c hc
    rw [decide_eq_true_iff]
    rintro rfl
    exact hs hc
  have hdrop : (slash :: name).dropWhile (· = slash) = name := by
    rw [List.dropWhile_cons_of_pos (by simp)]
    cases name with
    | nil => rfl
    | cons c cs =>
      have hc : c ≠ slash := by
        rintro rfl
        exact hs List.mem_cons_self
      rw [List.dropWhile_cons_of_neg (by simpa using hc)]
  unfold skipelem
  rw [hdrop]
  cases name with
  | nil => exact absurd rfl hne
  | cons c cs =>
    dsimp only
    rw [List.takeWhile_eq_self_iff.mpr hall, List.dropWhile_eq_nil_iff.mpr hall]
    rfl

theorem skipelem_nil : skipelem [] = none := rfl

namespace Mkfs

/-! ## The root directory -/

theorem range_map_getD {l : List UInt8} {o n : ℕ} (h : o + n ≤ l.length) :
    (List.range n).map (fun i => l.getD (o + i) 0) = (l.drop o).take n := by
  refine List.ext_getElem (by simp; omega) fun i h1 h2 => ?_
  have hi : o + i < l.length := by
    simp at h1
    omega
  simp [List.getElem?_eq_getElem hi]

theorem entries_drop {xs : List HostFile} {n k : ℕ} (hk : k < xs.length) :
    (entries n xs).drop (16 * k) =
      dirent (n + k) (shortname xs[k].path) ++ entries (n + k + 1) (xs.drop (k + 1)) := by
  induction xs generalizing n k with
  | nil => simp at hk
  | cons x xs ih =>
    cases k with
    | zero => rfl
    | succ k =>
      have hlen : 16 * (k + 1) = (dirent n (shortname x.path)).length + 16 * k := by
        rw [dirent_length]
        ring
      show (dirent n (shortname x.path) ++ entries (n + 1) xs).drop _ = _
      rw [hlen, ← List.drop_drop, List.drop_left, ih (by simpa using hk),
        show n + 1 + k = n + (k + 1) by ring]
      rfl

section Image

variable {m : Mk} {f : ℕ → List UInt8} {ty : ℕ → ℕ} {i : ℕ}

theorem Image.mapped (h : Image m f ty) (hi : i < NINODES) {o : ℕ} (ho : o < (f i).length) :
    fileBlock m.img (dinode sb m.img i) (o / BSIZE) ≠ 0 := by
  have := h.core.mapped i (o / BSIZE) ((Nat.div_mul_le_self o BSIZE).trans_lt ho)
  rwa [show inodes m.img i = _ from if_pos hi] at this

theorem Image.fileSlice (h : Image m f ty) (hi : i < NINODES) {o n : ℕ}
    (hn : o + n ≤ (f i).length) :
    Fs.fileSlice m.img (dinode sb m.img i) o n = ((f i).drop o).take n := by
  rw [← range_map_getD hn]
  refine List.map_congr_left fun j hj => ?_
  have hj' := List.mem_range.mp hj
  have hmap := h.core.mapped i ((o + j) / BSIZE) ((Nat.div_mul_le_self _ BSIZE).trans_lt (by omega))
  have := h.core.bytes i (o + j) hmap
  rwa [show inodes m.img i = _ from if_pos hi] at this

theorem Image.entry_dot {files : List HostFile} (h : Image m (finalFile files) ty) :
    entry m.img (dinode sb m.img ROOTINO) 0 = dirent ROOTINO [dot] ∧
      entry m.img (dinode sb m.img ROOTINO) 1 = dirent ROOTINO [dot, dot] := by
  have hlen : 32 ≤ (finalFile files ROOTINO).length := by
    rw [finalFile_root, List.length_append]
    exact Nat.le_add_right 32 _
  unfold entry
  rw [h.fileSlice (by decide) (by omega), h.fileSlice (by decide) (by omega), finalFile_root, dots]
  exact ⟨rfl, rfl⟩

theorem Image.entry_file {files : List HostFile} (h : Image m (finalFile files) ty) {k : ℕ}
    (hk : k < files.length) :
    entry m.img (dinode sb m.img ROOTINO) (k + 2) = dirent (k + 2) (shortname files[k].path) := by
  have hdots : dots.length = 32 := rfl
  have hlen : 16 * (k + 2) + 16 ≤ (finalFile files ROOTINO).length := by
    rw [finalFile_root, List.length_append, entries_length]
    omega
  unfold entry
  rw [h.fileSlice (by decide) hlen, finalFile_root,
    show 16 * (k + 2) = dots.length + 16 * k by rw [hdots]; ring, ← List.drop_drop, List.drop_left,
    entries_drop hk, Nat.add_comm 2 k]
  exact List.take_left' (dirent_length _ _)

end Image

/-! ## Names -/

theorem namecmp_dirent {a b : List UInt8} {n : ℕ} (ha : (0 : UInt8) ∉ a) (hb : (0 : UInt8) ∉ b) :
    namecmp (a.take DIRSIZ) (deName (dirent n b)) = true ↔ a.take DIRSIZ = b.take DIRSIZ := by
  unfold namecmp
  rw [decide_eq_true_iff, deName_dirent, cut_nameField hb,
    cut_of_nonul fun h => ha (List.mem_of_mem_take h), List.take_take, min_self]

theorem nonul_shortname (x : HostFile) : (0 : UInt8) ∉ shortname x.path := by
  have hbase : (0 : UInt8) ∉ basename x.path := by
    intro h
    unfold basename at h
    rw [List.mem_reverse] at h
    exact x.nonul (List.mem_reverse.mp ((List.takeWhile_sublist _).mem h))
  unfold shortname
  cases hb : basename x.path with
  | nil => exact List.not_mem_nil
  | cons c cs =>
    rw [hb] at hbase
    dsimp only
    split_ifs
    · exact fun h => hbase (List.mem_cons_of_mem _ h)
    · exact hbase

theorem slash_notMem_shortname (path : List UInt8) : slash ∉ shortname path := by
  have hbase := slash_notMem_basename path
  unfold shortname
  cases hb : basename path with
  | nil => exact List.not_mem_nil
  | cons c cs =>
    rw [hb] at hbase
    dsimp only
    split_ifs
    · exact fun h => hbase (List.mem_cons_of_mem _ h)
    · exact hbase

/-! ## Booting -/

variable {m : Mk} {f : ℕ → List UInt8} {ty : ℕ → ℕ} {E : Panic × State → Prop}

theorem putHead_zero : Logging.putHead [] (fun _ => 0) = fun _ => 0 := by
  funext i
  show Bytes.set (fun _ => 0) 0 4 0 i = 0
  unfold Bytes.set
  split_ifs
  · simp
  · rfl

theorem fsinit_image (h : Image m f ty) :
    Spec fsinit (powerOn m.img) (fun _ s => s.sb = sb ∧ s.blk = m.img ∧
      s.itable = (powerOn m.img).itable ∧ s.log = { size := sb.nlog }) E := by
  have hsb : Superblock.get (m.img 1) = sb := by
    rw [h.super]
    exact Superblock.get_put (by decide) _
  have hlog : m.img sb.logstart = fun _ => 0 := h.log _ le_rfl (by decide)
  have hhead : Logging.getHead (m.img sb.logstart) = some [] := by
    rw [hlog]
    unfold Logging.getHead
    simp only [Bytes.get_zero]
    rfl
  unfold fsinit
  rw [spec_bind, spec_modify, spec_bind, spec_get]
  have hsb' : Superblock.get ((powerOn m.img).blk 1) = sb := hsb
  simp only [hsb']
  rw [if_neg (by decide)]
  unfold initlog
  rw [spec_bind, spec_modify, spec_bind, spec_get]
  have hhead' : Logging.getHead ((powerOn m.img).blk sb.logstart) = some [] := hhead
  simp only [hhead']
  unfold writeHead bwrite
  simp only [installTrans, pure_bind, spec_bind, spec_get, spec_modify]
  refine ⟨trivial, ?_, trivial, trivial⟩
  have hblk : (powerOn m.img).blk sb.logstart = fun _ => 0 := hlog
  rw [hblk, putHead_zero, ← hlog]
  exact update_eq_self _ _

/-- Look a file up, and read `n` bytes of it. -/
def readFile (p : Slot) (path : List UInt8) (n : ℕ) :
    Kern (Option (Dinode × Option (List UInt8))) := do
  beginOp
  match ← namei p path with
  | none => return none
  | some ip =>
    ilock ip
    let d := ((← get).itable ip).din
    let bytes ← readi ip (.kernel []) 0 n
    return some (d, bytes)

theorem powerOn_live {disk : ℕ → Block} {k : Ip} (h : 0 < ((powerOn disk).itable k).ref) :
    k.val = 0 := by
  by_contra hk
  have : (powerOn disk).itable k = {} := if_neg hk
  rw [this] at h
  exact absurd h (by decide)

section Lookup

variable {files : List HostFile} {k : ℕ}

/-- The names of the host files are names that the kernel can tell apart. -/
structure Names (files : List HostFile) : Prop where
  nodup : (files.map fun x => (shortname x.path).take DIRSIZ).Nodup
  name : ∀ x ∈ files, shortname x.path ≠ [] ∧ (shortname x.path).take DIRSIZ ≠ [dot] ∧
    (shortname x.path).take DIRSIZ ≠ [dot, dot]

/-- The entry of a file is the first one with its name. -/
theorem Image.matches_iff (h : Image m (finalFile files) ty) (hnames : Names files)
    (hlen : files.length ≤ 198) (hk : k < files.length) {j : ℕ} (hj : j ≤ k + 2) :
    Matches m.img (dinode sb m.img ROOTINO) ((shortname files[k].path).take DIRSIZ) j ↔
      j = k + 2 := by
  obtain ⟨-, hdot, hdotdot⟩ := hnames.name files[k] (List.getElem_mem hk)
  have hnul := nonul_shortname files[k]
  unfold Matches
  constructor
  · rintro ⟨-, hcmp⟩
    by_contra hne
    by_cases h0 : j = 0
    · rw [h0, h.entry_dot.1, namecmp_dirent hnul (by decide)] at hcmp
      exact hdot hcmp
    by_cases h1 : j = 1
    · rw [h1, h.entry_dot.2, namecmp_dirent hnul (by decide)] at hcmp
      exact hdotdot hcmp
    · obtain ⟨i, rfl⟩ : ∃ i, j = i + 2 := ⟨j - 2, by omega⟩
      have hi : i < files.length := by omega
      rw [h.entry_file hi, namecmp_dirent hnul (nonul_shortname _)] at hcmp
      have hinj : k = i := by
        have hk' : k < (files.map fun x => (shortname x.path).take DIRSIZ).length := by simpa
        have hi' : i < (files.map fun x => (shortname x.path).take DIRSIZ).length := by simpa
        rw [← hnames.nodup.getElem_inj_iff, List.getElem_map, List.getElem_map]
        exacts [hcmp, hk', hi']
      omega
  · rintro rfl
    rw [h.entry_file hk, deInum_dirent (by omega), namecmp_dirent hnul hnul]
    exact ⟨by omega, rfl⟩

/-- `namei` of a file on a fresh image: its inode, not yet read. -/
theorem namei_image {s : State} {p : Slot} {Q : Option Ip → State → Prop}
    (h : Image m (finalFile files) (finalType files)) (hnames : Names files)
    (hlen : files.length ≤ 198) (hk : k < files.length) (hsb : s.sb = sb) (hblk : s.blk = m.img)
    (htable : s.itable = (powerOn m.img).itable)
    (hQ : ∀ ip s', s'.sb = sb → s'.blk = m.img →
      s'.itable ip = { inum := k + 2, ref := 1 } → Q (some ip) s') :
    Spec (namei p (slash :: shortname files[k].path)) s Q E := by
  set root : Ip := ⟨0, by decide⟩
  have hroot : ∀ {k : Ip}, k.val = 0 → k = root := fun h => Fin.ext h
  have hT0 : (powerOn m.img).itable root = { inum := ROOTINO, ref := 1 } := rfl
  have hT1 : ∀ {k : Ip}, k ≠ root → (powerOn m.img).itable k = {} := fun hk =>
    if_neg fun e => hk (hroot e)
  have hrootTy : (dinode sb m.img ROOTINO).type = T_DIR := by
    rw [(h.head ROOTINO (by decide)).1, finalType, addedType_of_lt (by decide), update_self]
  have hrootSz : (dinode sb m.img ROOTINO).size =
      ((finalFile files ROOTINO).length / BSIZE + 1) * BSIZE := by
    rw [(h.head ROOTINO (by decide)).2.2, if_pos rfl]
  have hdirLen : (finalFile files ROOTINO).length = 32 + 16 * files.length := by
    rw [finalFile_root, List.length_append, entries_length]
    rfl
  obtain ⟨hne, -, -⟩ := hnames.name files[k] (List.getElem_mem hk)
  unfold namei namex startDir
  rw [if_pos (by rfl)]
  simp only [spec_bind]
  refine spec_iget (fun ip hip hin => ?_) (fun hno => ?_) fun hfull => ?_
  · obtain rfl : ip = root := hroot (powerOn_live (htable ▸ hip))
    rw [htable, hT0]
    unfold namexLoop
    rw [skipelem_single hne (slash_notMem_shortname _)]
    dsimp only
    rw [spec_bind]
    refine spec_ilock_load ?_ ?_ ?_ ?_ ?_
    · simp
    · simp
    · simp
    · simp only [update_self, hsb, hblk, hrootTy]
      decide
    simp only [update_self, update_idem, hsb, hblk]
    rw [spec_get_bind]
    simp only [update_self, hrootTy]
    rw [if_neg (by simp), if_neg (by simp), spec_bind]
    have hmatch := fun {j} hj => h.matches_iff hnames hlen hk (j := j) hj
    have hfile := (hmatch le_rfl).mpr rfl
    refine dirlookup_spec ?_ ?_ ?_ ?_ ?_ (by simp only [update_self, hrootTy])
    · simp only [update_self, hrootSz, hdirLen]
      unfold BSIZE
      omega
    · simp only [update_self, hrootSz]
      exact ⟨64 * ((finalFile files ROOTINO).length / BSIZE + 1), by unfold BSIZE; ring⟩
    · simp only [update_self]
      intro j _ hbefore
      have hj : j ≤ k + 2 := not_lt.mp fun hlt => hbefore _ hlt hfile
      exact h.mapped (by decide) (by rw [hdirLen]; omega)
    · simp only [update_self]
      intro j _ hj hbefore
      obtain rfl := (hmatch (not_lt.mp fun hlt => hbefore _ hlt hfile)).mp hj
      rw [h.entry_file hk, deInum_dirent (by omega)]
      refine spec_iget (fun ip hip hin => ?_) (fun _ ip hip => ?_) fun hfull => ?_
      · exfalso
        by_cases e : ip = root
        · rw [e] at hin
          simp only [update_self] at hin
          unfold ROOTINO at hin
          omega
        · simp only [update_of_ne e, hT1 e] at hip
          exact absurd hip (by decide)
      · have e : ip ≠ root := by
          rintro rfl
          simp at hip
        simp only [update_of_ne e, hT1 e]
        rw [spec_bind]
        refine spec_iunlockput_shared ?_ ?_ ?_
        · simp [update_of_ne e.symm]
        · simp [update_of_ne e.symm]
        · simp only [List.length_cons]
          unfold namexLoop
          rw [skipelem_nil]
          simp only [Bool.false_eq_true, if_false, spec_pure, Option.map_some]
          refine hQ ip _ rfl rfl ?_
          simp [update_of_ne e]
      · have h1 := (hfull ⟨1, by decide⟩).1
        have e : (⟨1, by decide⟩ : Ip) ≠ root := by decide
        simp only [update_of_ne e, hT1 e] at h1
        exact absurd rfl h1
    · simp only [update_self]
      intro hno
      refine absurd hfile (hno (k + 2) ?_)
      rw [hrootSz, hdirLen]
      unfold BSIZE
      omega
  · have := hno root
    rw [htable, hT0] at this
    exact absurd rfl (this (by decide))
  · have h1 := (hfull ⟨1, by decide⟩).1
    rw [htable, hT1 (show (⟨1, by decide⟩ : Ip) ≠ root by decide)] at h1
    exact absurd rfl h1

/-- What `mkfs` puts on the disk the kernel reads back: the file is found under its name, and its
inode and its bytes are those of the host file. -/
theorem mkfs_kernel_agree {files : List HostFile} {m : Mk} (hm : mkfs files = .ok m)
    (hn : files.length + 1 < sb.ninodes) (hnames : Names files) {k : ℕ} (hk : k < files.length)
    (p : Slot) {n : ℕ} (hdata : files[k].data.length ≤ n) (hn32 : n < 2 ^ 32) :
    Spec (do fsinit; readFile p (slash :: shortname files[k].path) n) (powerOn m.img)
      (fun r _ => ∃ d, r = some (d, some files[k].data) ∧ d.type = T_FILE ∧ d.nlink = 1 ∧
        d.size = files[k].data.length) fun _ => False := by
  have hlen : files.length ≤ 198 := by
    have : sb.ninodes = 200 := rfl
    omega
  obtain ⟨-, h⟩ := mkfs_image (by unfold NINODES; omega) hm
  have hkN : k + 2 < NINODES := by
    unfold NINODES
    omega
  have hbytes : finalFile files (k + 2) = files[k].data := by
    rw [Nat.add_comm]
    exact added_file (by decide) hk
  have hty : finalType files (k + 2) = T_FILE := by
    rw [Nat.add_comm]
    exact addedType_file hk
  obtain ⟨htype, hnlink, hsize⟩ := h.head (k + 2) hkN
  rw [hty] at htype hnlink
  rw [if_neg (by unfold ROOTINO; omega), hbytes] at hsize
  refine (fsinit_image h).bind ?_
  rintro - s1 ⟨hsb, hblk, htable, hlog⟩
  unfold readFile beginOp
  simp only [spec_bind, spec_get, hlog]
  rw [show Logging.beginOp { size := sb.nlog } = some { size := sb.nlog, outstanding := 1 } from rfl]
  dsimp only
  rw [spec_modify]
  refine namei_image h hnames hlen hk hsb hblk htable ?_
  intro ip s2 hsb2 hblk2 hip
  dsimp only
  rw [spec_bind]
  refine spec_ilock_load ?_ ?_ ?_ ?_ ?_
  · rw [hip]
  · rw [hip]
  · rw [hip]
  · rw [hip, hsb2, hblk2, htype]
    decide
  rw [hip, hsb2, hblk2]
  simp only [spec_bind, spec_get, spec_pure, update_self]
  refine (readi_mapped (Mem.takes_kernel _ _) ?_ ?_ ?_).imp ?_
  · exact Nat.zero_le _
  · omega
  · intro o _ _ ho
    dsimp only at ho ⊢
    rw [update_self] at ho ⊢
    exact h.mapped hkN (by rwa [hbytes, ← hsize])
  · rintro r s3 ⟨-, rfl⟩
    refine ⟨_, ?_, htype, hnlink, hsize⟩
    dsimp only
    rw [update_self]
    dsimp only
    rw [hsize, Nat.sub_zero, min_eq_right hdata,
      h.fileSlice hkN (by rw [hbytes]; omega), hbytes, List.drop_zero, List.take_length]

theorem mkfs_kernel_agree_hi : ∃ m, mkfs [emptyFile, hiFile] = .ok m ∧ Names [emptyFile, hiFile] ∧
    Spec (do fsinit; readFile initproc [slash, 104, 105] 512) (powerOn m.img)
      (fun r _ => ∃ d, r = some (d, some [104, 105, 10]) ∧ d.type = T_FILE ∧ d.nlink = 1 ∧
        d.size = 3) fun _ => False := by
  obtain ⟨m, hm⟩ := exists_of_isOk [emptyFile, hiFile] (by decide +kernel)
  have hnames : Names [emptyFile, hiFile] := ⟨by decide, by decide⟩
  exact ⟨m, hm, hnames, mkfs_kernel_agree hm (by decide) hnames (k := 1) (by decide) initproc
    (by decide) (by decide)⟩

end Lookup

end Mkfs

end TatakOS.Fs
